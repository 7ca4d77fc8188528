import BoringPanel.Frontend.SpanToTree

/-!
# When the trees conserve the spans

The forest has each span once, and each other node, which is a missing span, once, if and only if

* no id is the key of the prototype, and no reference leads to a name of `Object.prototype`;
* a reference without a `SpanId`, which is read as `undefined`, leads to no node;
* each span references one node at most, and the links have no cycles;
* each node without parent is a root once: it has a reference with an empty `SpanId`, or all references of the
  list are to the same trace (`conserves_iff`).
-/

namespace Frontend

namespace SpanToTree

open JsValue (set prototypeKey)

/-! ### What the references say -/

section Conditions

def undefinedKey : JsText := JsText.of "undefined"

def Span.References (span : Span) (id : JsText) : Prop := ∃ ref ∈ span.childReferences, ref.spanId = some id

/-- There is a reference that has no `SpanId`, so that `undefined` is the key that is read. -/
def Span.HasUnnamed (span : Span) : Prop := ∃ ref ∈ span.childReferences, ref.spanId = none

/-- The spans that a span references; no node is made for the empty id. -/
def Span.parents (ids : List JsText) (span : Span) : List JsText :=
  (span.childReferences.filterMap Reference.spanId).filter fun id => id ≠ [] ∨ [] ∈ ids

/-- The span above a node, if it has one. -/
def parentOf (spans : List Span) (id : JsText) : Option JsText :=
  (spans.find? fun span => span.id = id).bind fun span => (span.parents (spans.map Span.id)).head?

/-- All references are to the same trace. -/
def OneTrace (refs : List Reference) : Prop := refs ≠ [] ∧ ∃ traceId, ∀ ref ∈ refs, ref.traceId = some traceId

/-- References without a `SpanId` lead to no node. -/
structure UnnamedNowhere (ids : List JsText) (spans : List Span) : Prop where
  own : ∀ span ∈ spans, span.HasUnnamed → undefinedKey ∉ ids ∧ ¬ span.References undefinedKey
  later : spans.Pairwise fun span span' => span.References undefinedKey → ¬ span'.HasUnnamed

/-- When the forest conserves the spans. -/
structure Conserving (spans : List Span) : Prop where
  named : ∀ span ∈ spans, span.id ≠ prototypeKey
  leads : ∀ span ∈ spans, ∀ ref ∈ span.childReferences, ref.Leads (spans.map Span.id)
  unnamed : UnnamedNowhere (spans.map Span.id) (objectOrder Span.id spans)
  one_parent : ∀ span ∈ spans, (span.parents (spans.map Span.id)).length ≤ 1
  inTree : ∀ span ∈ spans, Forest.InTree (parentOf spans) span.id
  root : ∀ span ∈ spans, span.parents (spans.map Span.id) = [] →
    span.References [] ∨ OneTrace (spans.flatMap Span.childReferences)
  missing : (∃ span ∈ spans, ∃ id ∉ spans.map Span.id, id ≠ [] ∧ span.References id) →
    OneTrace (spans.flatMap Span.childReferences)

variable {spans rest : List Span} {created ids names : List JsText} {span : Span} {refs : List Reference}
  {id : JsText}

theorem undefinedKey_notMem : undefinedKey ∉ inheritedNames := by decide

/-- A named reference leads to the span that it names. -/
theorem parentsAmong_eq (hnamed : ∀ ref ∈ refs, ∀ id, ref.spanId = some id → (id ∈ names ↔ id ≠ [] ∨ [] ∈ ids))
    (hunnamed : ∀ ref ∈ refs, ref.spanId = none → undefinedKey ∉ names) :
    parentsAmong names refs = (refs.filterMap Reference.spanId).filter fun id => id ≠ [] ∨ [] ∈ ids := by
  induction refs with
  | nil => rfl
  | cons ref refs ih =>
    obtain ⟨hname, hnames⟩ := List.forall_mem_cons.mp hnamed
    obtain ⟨hnone, hnones⟩ := List.forall_mem_cons.mp hunnamed
    have ih := ih hnames hnones
    rw [parentsAmong, List.map_cons, List.filter_cons]
    cases hid : ref.spanId with
    | none =>
      have hkey : ref.parentKey = undefinedKey := by rw [Reference.parentKey, hid]; rfl
      rw [List.filterMap_cons_none hid, hkey, if_neg (by simpa using hnone hid)]
      exact ih
    | some id =>
      have hkey : ref.parentKey = id := by rw [Reference.parentKey, hid]; rfl
      rw [List.filterMap_cons_some hid, List.filter_cons, hkey]
      have hiff := hname id hid
      by_cases h : id ∈ names
      · rw [if_pos (decide_eq_true h), if_pos (decide_eq_true (hiff.mp h))]
        exact congrArg (id :: ·) ih
      · rw [if_neg (by simpa using h), if_neg (by simpa using mt hiff.mpr h)]
        exact ih

theorem parentKey_of_some {ref : Reference} (h : ref.spanId = some id) : ref.parentKey = id := by
  rw [Reference.parentKey, h]
  rfl

/-- The names of the spans and of the missing spans that a span's references have been given. -/
theorem mem_names_iff {ref : Reference} (hleads : ∀ ref ∈ span.childReferences, ref.Leads ids)
    (hcreated : [] ∉ created) (href : ref ∈ span.childReferences) (hid : ref.spanId = some id) :
    id ∈ ids ++ createAll ids created span ↔ id ≠ [] ∨ [] ∈ ids := by
  rw [List.mem_append, createAll, mem_foldl_create]
  have hleads := hleads ref href
  rw [Reference.Leads, parentKey_of_some hid] at hleads
  constructor
  · rintro (h | h | ⟨-, hne, -⟩)
    · rcases eq_or_ne id [] with rfl | hne
      · exact .inr h
      · exact .inl hne
    · exact .inl fun hnil => hcreated (hnil ▸ h)
    · exact .inl hne
  · intro h
    by_cases hids : id ∈ ids
    · exact .inl hids
    · refine .inr (.inr ⟨⟨ref, href, hid⟩, fun hnil => ?_, hids, hleads.resolve_left hids⟩)
      exact hids (hnil ▸ h.resolve_left (not_not_intro hnil))

theorem linksTo_eq (hleads : ∀ ref ∈ span.childReferences, ref.Leads ids) (hcreated : [] ∉ created)
    (hunnamed : span.HasUnnamed → undefinedKey ∉ ids ++ createAll ids created span) :
    linksTo (ids ++ createAll ids created span) span = (span.parents ids).map fun parent => (span.id, parent) := by
  have heq : parentsAmong (ids ++ createAll ids created span) span.childReferences =
      (span.childReferences.filterMap Reference.spanId).filter fun id => id ≠ [] ∨ [] ∈ ids :=
    parentsAmong_eq (fun ref href id hid => mem_names_iff hleads hcreated href hid)
      fun ref href hnone => hunnamed ⟨ref, href, hnone⟩
  rw [linksTo, Span.parents, heq]

theorem mem_createAll : id ∈ createAll ids created span ↔
    id ∈ created ∨ span.References id ∧ id ≠ [] ∧ id ∉ ids ∧ id ∉ inheritedNames := mem_foldl_create

theorem undefinedKey_mem_createAll (hids : undefinedKey ∉ ids) : undefinedKey ∈ createAll ids created span ↔
    undefinedKey ∈ created ∨ span.References undefinedKey := by
  rw [mem_createAll]
  refine or_congr_right (and_iff_left ⟨by decide, hids, undefinedKey_notMem⟩)

/-- **The links are those of the named references**, if the others lead to no node. -/
theorem linksOf_eq (hleads : ∀ span ∈ rest, ∀ ref ∈ span.childReferences, ref.Leads ids)
    (hcreated : [] ∉ created) (hundefined : ∀ span ∈ rest, span.HasUnnamed → undefinedKey ∉ created)
    (h : UnnamedNowhere ids rest) :
    linksOf ids created rest =
      rest.flatMap fun span => (span.parents ids).map fun parent => (span.id, parent) := by
  induction rest generalizing created with
  | nil => rfl
  | cons span rest ih =>
    obtain ⟨hspan, hrest⟩ := List.forall_mem_cons.mp hleads
    obtain ⟨hown, howns⟩ := List.forall_mem_cons.mp h.own
    obtain ⟨hlater, hlaters⟩ := List.pairwise_cons.mp h.later
    rw [linksOf, List.flatMap_cons, linksTo_eq hspan hcreated, ih hrest ?_ ?_ ⟨howns, hlaters⟩]
    · intro hmem
      exact (mem_createAll.mp hmem).elim hcreated fun hnew => hnew.2.1 rfl
    · intro later hmem hunnamed hundef
      have hids := (howns later hmem hunnamed).1
      rcases (undefinedKey_mem_createAll hids).mp hundef with hold | href
      · exact hundefined later (List.mem_cons_of_mem _ hmem) hunnamed hold
      · exact hlater later hmem href hunnamed
    · intro hunnamed hmem
      obtain ⟨hids, href⟩ := hown hunnamed
      rcases List.mem_append.mp hmem with hmem | hmem
      · exact hids hmem
      · rcases (undefinedKey_mem_createAll hids).mp hmem with hold | hnew
        · exact hundefined span List.mem_cons_self hunnamed hold
        · exact href hnew

/-- Links of one span whose children are distinct are one link at most. -/
theorem length_parentsAmong_le (h : ((linksTo names span).map Prod.fst).Nodup) :
    (parentsAmong names span.childReferences).length ≤ 1 := by
  have hall : (linksTo names span).map Prod.fst =
      List.replicate (parentsAmong names span.childReferences).length span.id := by
    refine List.eq_replicate_iff.mpr ⟨by rw [linksTo, List.length_map, List.length_map], fun id hid => ?_⟩
    obtain ⟨link, hlink, rfl⟩ := List.mem_map.mp hid
    obtain ⟨parent, -, rfl⟩ := List.mem_map.mp hlink
    rfl
  rw [hall, List.nodup_replicate] at h
  exact h

theorem eq_of_length_le_one {β : Type} {l : List β} {a b : β} (h : l.length ≤ 1) (ha : a ∈ l) (hb : b ∈ l) :
    a = b := by
  match l with
  | [c] => rw [List.mem_singleton.mp ha, List.mem_singleton.mp hb]

/-- A reference without `SpanId` that leads to a node makes a link that no reference has named, or a second one. -/
theorem not_hasUnnamed (hundefined : undefinedKey ∈ names) (hnodup : ((linksTo names span).map Prod.fst).Nodup)
    (hreferences : ∀ link ∈ linksTo names span, span.References link.2) : ¬ span.HasUnnamed := by
  rintro ⟨ref, href, hnone⟩
  have hkey : ref.parentKey = undefinedKey := by rw [Reference.parentKey, hnone]; rfl
  obtain ⟨ref', href', hsome⟩ := hreferences (span.id, undefinedKey) <|
    List.mem_map_of_mem (List.mem_filter.mpr ⟨hkey ▸ List.mem_map_of_mem href, decide_eq_true hundefined⟩)
  -- both references make a link
  have hlength := length_parentsAmong_le hnodup
  rw [parentsAmong, List.filter_map, List.length_map] at hlength
  have hmem : ∀ ref ∈ span.childReferences, ref.parentKey = undefinedKey →
      ref ∈ span.childReferences.filter ((fun key => decide (key ∈ names)) ∘ Reference.parentKey) :=
    fun ref href hkey => List.mem_filter.mpr ⟨href, decide_eq_true (hkey ▸ hundefined)⟩
  have heq := eq_of_length_le_one hlength (hmem ref href hkey) (hmem ref' href' (parentKey_of_some hsome))
  rw [heq, hsome] at hnone
  cases hnone

theorem unnamedNowhere_of_links (hnodup : ((linksOf ids created rest).map Prod.fst).Nodup)
    (hreferences : ∀ link ∈ linksOf ids created rest, ∀ span ∈ rest, span.id = link.1 → span.References link.2)
    (hids : (rest.map Span.id).Nodup) :
    UnnamedNowhere ids rest ∧ ∀ span ∈ rest, span.HasUnnamed → undefinedKey ∉ created := by
  induction rest generalizing created with
  | nil => exact ⟨⟨fun _ h => absurd h List.not_mem_nil, .nil⟩, fun _ h => absurd h List.not_mem_nil⟩
  | cons span rest ih =>
    rw [linksOf, List.map_append] at hnodup
    rw [List.map_cons, List.nodup_cons] at hids
    obtain ⟨hspan, hrest, -⟩ := List.nodup_append.mp hnodup
    obtain ⟨⟨howns, hlaters⟩, hcreated⟩ := ih hrest
      (fun link hlink later hlater => hreferences link (List.mem_append_right _ hlink) later
        (List.mem_cons_of_mem _ hlater)) hids.2
    have hnone : span.HasUnnamed → undefinedKey ∉ ids ++ createAll ids created span := by
      intro hunnamed hmem
      refine not_hasUnnamed hmem hspan (fun link hlink => ?_) hunnamed
      refine hreferences link (List.mem_append_left _ hlink) span List.mem_cons_self ?_
      obtain ⟨parent, -, rfl⟩ := List.mem_map.mp hlink
      rfl
    have hown : span.HasUnnamed →
        undefinedKey ∉ ids ∧ ¬ span.References undefinedKey ∧ undefinedKey ∉ created := by
      intro hunnamed
      have hids : undefinedKey ∉ ids := fun hmem => hnone hunnamed (List.mem_append_left _ hmem)
      have hnew := mt (undefinedKey_mem_createAll hids).mpr
        fun hmem => hnone hunnamed (List.mem_append_right _ hmem)
      exact ⟨hids, fun href => hnew (.inr href), fun hold => hnew (.inl hold)⟩
    have hlater : ∀ later ∈ rest, later.HasUnnamed → undefinedKey ∉ created ∧ ¬ span.References undefinedKey := by
      intro later hmem hunnamed
      have hnew := mt (undefinedKey_mem_createAll (howns later hmem hunnamed).1).mpr (hcreated later hmem hunnamed)
      exact ⟨fun hold => hnew (.inl hold), fun href => hnew (.inr href)⟩
    refine ⟨⟨?_, ?_⟩, ?_⟩
    · exact List.forall_mem_cons.mpr ⟨fun hunnamed => ⟨(hown hunnamed).1, (hown hunnamed).2.1⟩, howns⟩
    · exact List.pairwise_cons.mpr ⟨fun later hmem href hunnamed => (hlater later hmem hunnamed).2 href, hlaters⟩
    · exact List.forall_mem_cons.mpr ⟨fun hunnamed => (hown hunnamed).2.2,
        fun later hmem hunnamed => (hlater later hmem hunnamed).1⟩

/-! ### Traces -/

theorem nodup_traceIds : (refs.foldl addTraceId []).Nodup := by
  suffices h : ∀ traceIds : List (Option JsText), traceIds.Nodup → (refs.foldl addTraceId traceIds).Nodup from
    h [] List.nodup_nil
  induction refs with
  | nil => exact fun _ => id
  | cons ref refs ih =>
    refine fun traceIds h => ih _ ?_
    unfold addTraceId
    split
    · exact h
    · rename_i hnew
      refine List.nodup_append.mpr ⟨h, List.nodup_singleton _, ?_⟩
      rintro v hv w hw rfl
      exact hnew (List.mem_singleton.mp hw ▸ hv)

theorem mem_traceIds {traceId : Option JsText} :
    traceId ∈ refs.foldl addTraceId [] ↔ ∃ ref ∈ refs, ref.traceId = traceId := by
  suffices h : ∀ traceIds : List (Option JsText), traceId ∈ refs.foldl addTraceId traceIds ↔
      traceId ∈ traceIds ∨ ∃ ref ∈ refs, ref.traceId = traceId from (h []).trans (by simp)
  induction refs with
  | nil => simp
  | cons ref refs ih =>
    intro traceIds
    have hadd : traceId ∈ addTraceId traceIds ref ↔ traceId ∈ traceIds ∨ ref.traceId = traceId := by
      unfold addTraceId
      split
      · rename_i hold
        refine ⟨.inl, ?_⟩
        rintro (h | rfl)
        · exact h
        · exact hold
      · rw [List.mem_append, List.mem_singleton, eq_comm (a := traceId)]
    rw [List.foldl_cons, ih, hadd, List.exists_mem_cons_iff, or_assoc]

/-- One trace is in the set. -/
theorem oneTrace_iff :
    OneTrace refs ↔ (refs.foldl addTraceId []).length = 1 ∧ none ∉ refs.foldl addTraceId [] := by
  constructor
  · rintro ⟨hne, traceId, hall⟩
    have hsame : ∀ id ∈ refs.foldl addTraceId [], id = some traceId := by
      intro id hid
      obtain ⟨ref, href, rfl⟩ := mem_traceIds.mp hid
      exact hall ref href
    obtain ⟨ref, href⟩ := List.exists_mem_of_ne_nil refs hne
    have hlist : refs.foldl addTraceId [] = [some traceId] := by
      have hmem : some traceId ∈ refs.foldl addTraceId [] := mem_traceIds.mpr ⟨ref, href, hall ref href⟩
      refine List.perm_singleton.mp ?_
      refine (List.perm_ext_iff_of_nodup nodup_traceIds (List.nodup_singleton _)).mpr fun id => ?_
      rw [List.mem_singleton]
      exact ⟨hsame id, fun h => h ▸ hmem⟩
    rw [hlist]
    exact ⟨rfl, by simp⟩
  · rintro ⟨hlength, hnone⟩
    obtain ⟨traceId, hlist⟩ := List.length_eq_one_iff.mp hlength
    have hmem : ∀ ref ∈ refs, ref.traceId = traceId := fun ref href =>
      List.mem_singleton.mp (hlist ▸ mem_traceIds.mpr ⟨ref, href, rfl⟩)
    refine ⟨?_, ?_⟩
    · rintro rfl
      cases hlist
    · cases htrace : traceId with
      | none =>
        rw [hlist, htrace] at hnone
        exact absurd (List.mem_singleton_self _) hnone
      | some traceId => exact ⟨traceId, fun ref href => (hmem ref href).trans htrace⟩

end Conditions

/-! ### The forest of a run -/

section Result

open Forest (childrenOf childrenOf_eq_nil mem_childrenOf)

variable {spans : List Span} {span : Span} {forest : TraceForest} {id : JsText}

def createdBy (spans : List Span) : List JsText :=
  (objectOrder Span.id spans).foldl (createAll (spans.map Span.id)) []

def linksBy (spans : List Span) : List (JsText × JsText) :=
  linksOf (spans.map Span.id) [] (objectOrder Span.id spans)

def traceIdsBy (spans : List Span) : List (Option JsText) :=
  ((objectOrder Span.id spans).flatMap Span.childReferences).foldl addTraceId []

def nodesBy (spans : List Span) : List (JsText × TraceTree) := nodesOf spans (createdBy spans) (linksBy spans)

/-- The nodes that are below no other. -/
def topsBy (spans : List Span) : List (JsText × TraceTree) :=
  (objectOrder Prod.fst (nodesBy spans)).filter fun e => !e.2.isProcessed

theorem mem_ordered : span ∈ objectOrder Span.id spans ↔ span ∈ spans := (objectOrder_perm Span.id spans).mem_iff

theorem spanToTreeUtil_eq (hnodup : (spans.map Span.id).Nodup) (hproto : ∀ span ∈ spans, span.id ≠ prototypeKey) :
    spanToTreeUtil spans = if ∀ span ∈ spans, ∀ ref ∈ span.childReferences, ref.Leads (spans.map Span.id) then
      (topsBy spans).foldlM (addRoot (traceIdsBy spans)) ⟨nodesBy spans, [], []⟩ else .error .push := by
  have hassign : spans.foldl SpanMap.assign ⟨[], none⟩ = mapOf spans [] [] := @assign_mapOf [] spans hnodup hproto
  have hentries : objectOrder Prod.fst (mapOf spans [] []).members =
      (objectOrder Span.id spans).map fun span => (span.id, spanObject span) := by
    have hmembers : (mapOf spans [] []).members = spans.map fun span => (span.id, spanObject span) := by
      simp [mapOf, nodesOf, linked, spanObject, Forest.childrenOf]
    rw [hmembers, objectOrder_map]
  rw [spanToTreeUtil, hassign]
  dsimp only
  rw [hentries, foldlM_processSpan (fun span h => mem_ordered.mp h) (fun _ h => absurd h List.not_mem_nil)
    (fun _ h => absurd h List.not_mem_nil)]
  have hordered : (∀ span ∈ objectOrder Span.id spans, ∀ ref ∈ span.childReferences,
      ref.Leads (spans.map Span.id)) ↔
      ∀ span ∈ spans, ∀ ref ∈ span.childReferences, ref.Leads (spans.map Span.id) :=
    forall_congr' fun span => imp_congr_left mem_ordered
  by_cases h : ∀ span ∈ spans, ∀ ref ∈ span.childReferences, ref.Leads (spans.map Span.id)
  · rw [if_pos (hordered.mpr h), if_pos h]
    rfl
  · rw [if_neg (mt hordered.mp h), if_neg h]
    rfl

theorem mem_createdBy : id ∈ createdBy spans ↔
    (∃ span ∈ spans, span.References id) ∧ id ≠ [] ∧ id ∉ spans.map Span.id ∧ id ∉ inheritedNames := by
  rw [createdBy, mem_foldl_createAll, or_iff_right List.not_mem_nil]
  refine and_congr_left fun _ => exists_congr fun span => and_congr_left fun _ => mem_ordered

theorem nodup_names (hnodup : (spans.map Span.id).Nodup) : (namesOf spans (createdBy spans)).Nodup := by
  refine List.nodup_append.mpr ⟨hnodup, nodup_foldl_createAll List.nodup_nil, ?_⟩
  rintro v hv w hw rfl
  exact (mem_createdBy.mp hw).2.2.1 hv

/-- The links lead from spans to nodes. -/
theorem linksOf_among {ids created : List JsText} {rest : List Span} (hids : ∀ span ∈ rest, span.id ∈ ids) :
    ∀ link ∈ linksOf ids created rest, link.1 ∈ ids ∧ link.2 ∈ ids ++ rest.foldl (createAll ids) created := by
  induction rest generalizing created with
  | nil => exact fun _ h => absurd h List.not_mem_nil
  | cons span rest ih =>
    obtain ⟨hspan, hrest⟩ := List.forall_mem_cons.mp hids
    intro link hlink
    rcases List.mem_append.mp hlink with hlink | hlink
    · obtain ⟨parent, hparent, rfl⟩ := List.mem_map.mp hlink
      refine ⟨hspan, ?_⟩
      have hname := of_decide_eq_true (List.mem_filter.mp hparent).2
      refine (List.mem_append.mp hname).elim (List.mem_append_left _) fun hname => List.mem_append_right _ ?_
      show parent ∈ rest.foldl (createAll ids) (createAll ids created span)
      exact mem_foldl_createAll.mpr (.inl hname)
    · exact ih hrest link hlink

theorem linksBy_among (link : JsText × JsText) (h : link ∈ linksBy spans) :
    link.1 ∈ spans.map Span.id ∧ link.2 ∈ namesOf spans (createdBy spans) :=
  linksOf_among (fun _ hspan => List.mem_map_of_mem (mem_ordered.mp hspan)) link h

@[simp] theorem linked_fst (links : List (JsText × JsText)) (e : JsText × TraceTree) :
    (linked links e).1 = e.1 := rfl

@[simp] theorem isProcessed_linked (links : List (JsText × JsText)) (e : JsText × TraceTree) :
    (linked links e).2.isProcessed = decide (e.1 ∈ links.map Prod.fst) := rfl

theorem fst_nodesBy : (nodesBy spans).map Prod.fst = namesOf spans (createdBy spans) := keys_mapOf

theorem mem_nodesBy {e : JsText × TraceTree} : e ∈ nodesBy spans ↔
    (∃ span ∈ spans, linked (linksBy spans) (span.id, spanObject span) = e) ∨
      ∃ id ∈ createdBy spans, linked (linksBy spans) (id, missingSpan) = e := by
  simp only [nodesBy, nodesOf, List.map_append, List.mem_append, List.map_map, List.mem_map, Function.comp_apply]

theorem lookup_nodesBy (hnodup : (spans.map Span.id).Nodup) {e : JsText × TraceTree} (he : e ∈ nodesBy spans) :
    (nodesBy spans).lookup e.1 = some e.2 := by
  have hkeys : ((nodesBy spans).map Prod.fst).Nodup := fst_nodesBy ▸ nodup_names hnodup
  generalize nodesBy spans = nodes at he hkeys ⊢
  induction nodes with
  | nil => exact absurd he List.not_mem_nil
  | cons first rest ih =>
    rw [List.map_cons, List.nodup_cons] at hkeys
    obtain ⟨key, node⟩ := first
    rw [List.lookup_cons]
    rcases List.mem_cons.mp he with rfl | he
    · simp
    · have hne : e.1 ≠ key := fun heq => hkeys.1 (List.mem_map.mpr ⟨e, he, heq⟩)
      rw [beq_eq_false_iff_ne.mpr hne]
      exact ih he hkeys.2

theorem children_eq (hnodup : (spans.map Span.id).Nodup) (h : forest.nodes = nodesBy spans) :
    forest.children = childrenOf (linksBy spans) := by
  ext1 id
  rw [TraceForest.children, h]
  by_cases hid : id ∈ namesOf spans (createdBy spans)
  · rw [← fst_nodesBy] at hid
    obtain ⟨e, he, rfl⟩ := List.mem_map.mp hid
    rw [lookup_nodesBy hnodup he]
    rcases mem_nodesBy.mp he with ⟨span, -, rfl⟩ | ⟨id, -, rfl⟩
    · rfl
    · rfl
  · have hlookup : (nodesBy spans).lookup id = none := by
      refine List.lookup_eq_none_iff.mpr fun e he => bne_iff_ne.mpr fun heq : id = e.1 => hid ?_
      rw [← fst_nodesBy, heq]
      exact List.mem_map_of_mem he
    rw [hlookup]
    refine (childrenOf_eq_nil fun hmem => hid ?_).symm
    obtain ⟨link, hlink, rfl⟩ := List.mem_map.mp hmem
    exact (linksBy_among link hlink).2

theorem mem_topsBy {e : JsText × TraceTree} :
    e ∈ topsBy spans ↔ e ∈ nodesBy spans ∧ e.1 ∉ (linksBy spans).map Prod.fst := by
  rw [topsBy, List.mem_filter, (objectOrder_perm Prod.fst (nodesBy spans)).mem_iff]
  refine and_congr_right fun he => ?_
  rcases mem_nodesBy.mp he with ⟨span, -, rfl⟩ | ⟨id, -, rfl⟩
  · simp
  · simp

theorem isRoot_span {links : List (JsText × JsText)} :
    (linked links (span.id, spanObject span)).2.isRoot = true ↔ span.References [] := by
  change (span.childReferences.any fun refs => refs.spanId = some []) = true ↔ _
  rw [List.any_eq_true]
  exact exists_congr fun ref => and_congr_right fun _ => decide_eq_true_iff

/-- The roots that a run has found. -/
def rootsBy (spans : List Span) : List JsText :=
  (topsBy spans).flatMap fun e => List.replicate (rootCount (traceIdsBy spans) e) e.1

theorem mem_rootsBy : id ∈ rootsBy spans ↔ ∃ e ∈ topsBy spans, 0 < rootCount (traceIdsBy spans) e ∧ e.1 = id := by
  rw [rootsBy, List.mem_flatMap]
  refine exists_congr fun e => and_congr_right fun _ => ?_
  rw [List.mem_replicate, Nat.pos_iff_ne_zero, eq_comm (a := id)]

theorem nodup_rootsBy (hnodup : (spans.map Span.id).Nodup) :
    (rootsBy spans).Nodup ↔ ∀ e ∈ topsBy spans, rootCount (traceIdsBy spans) e ≤ 1 := by
  have hkeys : ((topsBy spans).map Prod.fst).Nodup := by
    refine List.Nodup.sublist (List.filter_sublist.map _) ?_
    have hperm := (objectOrder_perm Prod.fst (nodesBy spans)).map Prod.fst
    exact hperm.nodup_iff.mpr (fst_nodesBy ▸ nodup_names hnodup)
  rw [rootsBy, List.nodup_flatMap]
  constructor
  · exact fun h e he => List.nodup_replicate.mp (h.1 e he)
  · refine fun h => ⟨fun e he => List.nodup_replicate.mpr (h e he), ?_⟩
    refine (List.pairwise_map.mp hkeys).imp fun hne v hv hv' => hne ?_
    rw [← List.eq_of_mem_replicate hv, ← List.eq_of_mem_replicate hv']

/-- What a run without error has found. -/
theorem of_spanToTreeUtil (hnodup : (spans.map Span.id).Nodup) (hproto : ∀ span ∈ spans, span.id ≠ prototypeKey)
    (h : spanToTreeUtil spans = .ok forest) :
    (∀ span ∈ spans, ∀ ref ∈ span.childReferences, ref.Leads (spans.map Span.id)) ∧
      (∀ e ∈ topsBy spans, e.2.isRoot = true ∨ none ∉ traceIdsBy spans) ∧
      forest.children = childrenOf (linksBy spans) ∧ forest.nodes = nodesBy spans ∧
      forest.roots.Perm (rootsBy spans) := by
  rw [spanToTreeUtil_eq hnodup hproto] at h
  split at h
  · rename_i hleads
    obtain ⟨htops, hgrown⟩ := grown_of_addRoots h
    exact ⟨hleads, htops, children_eq hnodup hgrown.nodes, hgrown.nodes, hgrown.roots⟩
  · cases h

end Result

/-! ### A span that becomes the prototype -/

section Prototype

variable {spans : List Span} {spanMap spanMap' : SpanMap} {st st' : State} {refs : List Reference}

/-- No member has the key of the prototype, nor is it among the children of one. -/
def Unlisted (members : List (JsText × TraceTree)) : Prop :=
  ∀ e ∈ members, e.1 ≠ prototypeKey ∧ prototypeKey ∉ e.2.children

theorem mem_set {members : List (JsText × TraceTree)} {key : JsText} {value : TraceTree} {e : JsText × TraceTree}
    (h : e ∈ set members key value) : e = (key, value) ∨ e ∈ members := by
  induction members with
  | nil => exact .inl (List.mem_singleton.mp h)
  | cons member rest ih =>
    rw [JsValue.set] at h
    split at h
    · rename_i heq
      rcases List.mem_cons.mp h with rfl | h
      · exact .inl (by rw [heq])
      · exact .inr (List.mem_cons_of_mem _ h)
    · rcases List.mem_cons.mp h with rfl | h
      · exact .inr List.mem_cons_self
      · exact (ih h).imp_right (List.mem_cons_of_mem _)

theorem Unlisted.assign (h : Unlisted spanMap.members) (span : Span) : Unlisted (spanMap.assign span).members := by
  unfold SpanMap.assign
  split
  · exact h
  · rename_i hne
    intro e he
    rcases mem_set he with rfl | he
    · exact ⟨hne, List.not_mem_nil⟩
    · exact h e he

theorem read_prototypeKey (h : Unlisted spanMap.members) : spanMap.read prototypeKey ≠ .falsy := by
  have hkeys : prototypeKey ∉ spanMap.keys := by
    intro hmem
    obtain ⟨e, he, heq⟩ := List.mem_map.mp hmem
    exact (h e he).1 heq
  rw [SpanMap.read, if_neg hkeys, if_pos rfl]
  split <;> exact Found.noConfusion

theorem Unlisted.update (h : Unlisted spanMap.members) (id : JsText) (f : TraceTree → TraceTree)
    (hf : ∀ t, prototypeKey ∉ t.children → prototypeKey ∉ (f t).children) :
    Unlisted (spanMap.update id f).members := by
  intro e he
  obtain ⟨e, hmem, rfl⟩ := List.mem_map.mp he
  obtain ⟨hkey, hchildren⟩ := h e hmem
  split
  · exact ⟨hkey, hf e.2 hchildren⟩
  · exact ⟨hkey, hchildren⟩

theorem Unlisted.createMissing (h : Unlisted spanMap.members) (ref : Reference) :
    Unlisted (spanMap.createMissing ref).members := by
  unfold SpanMap.createMissing
  split
  · split
    · rename_i hnew
      intro e he
      rcases mem_set he with rfl | he
      · refine ⟨?_, List.not_mem_nil⟩
        rintro rfl
        exact read_prototypeKey h hnew.2
      · exact h e he
    · exact h
  · exact h

theorem Unlisted.createTraceRootSpan (h : Unlisted st.spanMap.members) :
    Unlisted (createTraceRootSpan st refs).spanMap.members := by
  unfold SpanToTree.createTraceRootSpan
  induction refs generalizing st with
  | nil => exact h
  | cons ref refs ih => exact ih (h.createMissing ref)

theorem Unlisted.addToParent {spanId : JsText} {ref : Reference} (hspan : spanId ≠ prototypeKey)
    (h : Unlisted spanMap.members) (hok : addToParent spanId spanMap ref = .ok spanMap') :
    Unlisted spanMap'.members := by
  have hprocessed := h.update spanId (fun spanData => { spanData with isProcessed := true })
    fun t ht => ht
  unfold SpanToTree.addToParent at hok
  split at hok
  · exact Except.ok.inj hok ▸ h
  · refine Except.ok.inj hok ▸ hprocessed.update _ _ fun t ht hmem => ?_
    exact (List.mem_append.mp hmem).elim ht fun hmem => hspan (List.mem_singleton.mp hmem).symm
  · exact Except.ok.inj hok ▸ hprocessed
  · cases hok

theorem Unlisted.processSpan {e : JsText × TraceTree} (hspan : e.1 ≠ prototypeKey)
    (h : Unlisted st.spanMap.members) (hok : processSpan st e = .ok st') : Unlisted st'.spanMap.members := by
  unfold SpanToTree.processSpan at hok
  split at hok
  · exact Except.ok.inj hok ▸ h
  · rename_i childReferences _
    obtain ⟨spanMap, hfold, hst⟩ := Fallible.bind_eq_ok hok
    obtain rfl := Except.ok.inj hst
    have hrun : ∀ {spanMap₀ : SpanMap} (refs : List Reference), Unlisted spanMap₀.members →
        refs.foldlM (SpanToTree.addToParent e.1) spanMap₀ = .ok spanMap → Unlisted spanMap.members := by
      intro spanMap₀ refs h₀ hrefs
      induction refs generalizing spanMap₀ with
      | nil => exact Except.ok.inj hrefs ▸ h₀
      | cons ref refs ih =>
        rw [List.foldlM_cons] at hrefs
        obtain ⟨next, hnext, hrest⟩ := Fallible.bind_eq_ok hrefs
        exact ih (h₀.addToParent hspan hnext) hrest
    exact hrun childReferences h.createTraceRootSpan hfold

theorem Unlisted.foldl_assign (h : Unlisted spanMap.members) (spans : List Span) :
    Unlisted (spans.foldl SpanMap.assign spanMap).members := by
  induction spans generalizing spanMap with
  | nil => exact h
  | cons span spans ih => exact ih (h.assign span)

theorem Unlisted.foldlM_processSpan {es : List (JsText × TraceTree)} (hes : ∀ e ∈ es, e.1 ≠ prototypeKey)
    (h : Unlisted st.spanMap.members) (hok : es.foldlM SpanToTree.processSpan st = .ok st') :
    Unlisted st'.spanMap.members := by
  induction es generalizing st with
  | nil => exact Except.ok.inj hok ▸ h
  | cons e es ih =>
    obtain ⟨he, hes⟩ := List.forall_mem_cons.mp hes
    rw [List.foldlM_cons] at hok
    obtain ⟨next, hnext, hrest⟩ := Fallible.bind_eq_ok hok
    exact ih hes (h.processSpan he hnext) hrest

/-- **A span with the id of the prototype is lost.** -/
theorem not_occurs_prototypeKey {forest : TraceForest} (h : spanToTreeUtil spans = .ok forest) :
    ¬ Forest.Occurs forest.roots forest.children prototypeKey := by
  have hempty : Unlisted (⟨[], none⟩ : SpanMap).members := fun _ he => absurd he List.not_mem_nil
  have hassign := hempty.foldl_assign spans
  obtain ⟨st, hst, hroots⟩ := Fallible.bind_eq_ok h
  have hmembers : Unlisted st.spanMap.members :=
    Unlisted.foldlM_processSpan (fun e he => (hassign e ((objectOrder_perm _ _).mem_iff.mp he)).1) hassign hst
  obtain ⟨-, hgrown⟩ := grown_of_addRoots hroots
  intro hoccurs
  suffices hne : prototypeKey ≠ prototypeKey from hne rfl
  refine hoccurs.rec_on (P := fun id => id ≠ prototypeKey) (fun id hid => ?_) fun p id _ hid => ?_
  · obtain ⟨e, he, hmem⟩ := List.mem_flatMap.mp (hgrown.roots.mem_iff.mp hid)
    rw [List.eq_of_mem_replicate hmem]
    exact (hmembers e ((objectOrder_perm _ _).mem_iff.mp (List.mem_of_mem_filter he))).1
  · rintro rfl
    rw [TraceForest.children, hgrown.nodes] at hid
    cases hlookup : st.spanMap.members.lookup p with
    | none => rw [hlookup] at hid; exact List.not_mem_nil hid
    | some t =>
      rw [hlookup] at hid
      obtain ⟨before, after, hmem, -⟩ := List.lookup_eq_some_iff.mp hlookup
      exact (hmembers (p, t) (hmem ▸ List.mem_append_right _ List.mem_cons_self)).2 hid

end Prototype

/-! ### Conservation -/

section Conservation

open Forest (childrenOf mem_childrenOf Occurs OccursOnce InTree)

variable {spans : List Span} {span : Span} {forest : TraceForest} {id p : JsText}

/-- The links of the named references. -/
theorem linksBy_eq (hleads : ∀ span ∈ spans, ∀ ref ∈ span.childReferences, ref.Leads (spans.map Span.id))
    (hunnamed : UnnamedNowhere (spans.map Span.id) (objectOrder Span.id spans)) :
    linksBy spans = (objectOrder Span.id spans).flatMap fun span =>
      (span.parents (spans.map Span.id)).map fun parent => (span.id, parent) :=
  linksOf_eq (fun span h => hleads span (mem_ordered.mp h)) List.not_mem_nil (fun _ _ _ => List.not_mem_nil)
    hunnamed

theorem mem_linksBy (h : linksBy spans = (objectOrder Span.id spans).flatMap fun span =>
      (span.parents (spans.map Span.id)).map fun parent => (span.id, parent)) :
    (id, p) ∈ linksBy spans ↔ ∃ span ∈ spans, span.id = id ∧ p ∈ span.parents (spans.map Span.id) := by
  rw [h, List.mem_flatMap]
  refine exists_congr fun span => and_congr mem_ordered ?_
  rw [List.mem_map]
  constructor
  · rintro ⟨parent, hparent, heq⟩
    obtain ⟨rfl, rfl⟩ := Prod.mk.inj heq
    exact ⟨rfl, hparent⟩
  · rintro ⟨rfl, hparent⟩
    exact ⟨p, hparent, rfl⟩

/-- The links of distinct spans are of distinct spans if each has one. -/
theorem nodup_linksBy (hnodup : (spans.map Span.id).Nodup)
    (h : linksBy spans = (objectOrder Span.id spans).flatMap fun span =>
      (span.parents (spans.map Span.id)).map fun parent => (span.id, parent)) :
    ((linksBy spans).map Prod.fst).Nodup ↔ ∀ span ∈ spans, (span.parents (spans.map Span.id)).length ≤ 1 := by
  have hids : ((objectOrder Span.id spans).map Span.id).Nodup :=
    ((objectOrder_perm Span.id spans).map Span.id).nodup_iff.mpr hnodup
  have hfst : (linksBy spans).map Prod.fst = (objectOrder Span.id spans).flatMap fun span =>
      List.replicate (span.parents (spans.map Span.id)).length span.id := by
    rw [h, List.map_flatMap]
    refine List.flatMap_congr fun span _ => ?_
    rw [List.map_map]
    exact List.map_const'
  rw [hfst, List.nodup_flatMap]
  constructor
  · exact fun hall span hspan => List.nodup_replicate.mp (hall.1 span (mem_ordered.mpr hspan))
  · refine fun hall => ⟨fun span hspan => List.nodup_replicate.mpr (hall span (mem_ordered.mp hspan)), ?_⟩
    refine (List.pairwise_map.mp hids).imp fun hne v hv hv' => hne ?_
    rw [← List.eq_of_mem_replicate hv, ← List.eq_of_mem_replicate hv']

theorem parentOf_span (hnodup : (spans.map Span.id).Nodup) (hspan : span ∈ spans) :
    parentOf spans span.id = (span.parents (spans.map Span.id)).head? := by
  have hfind : spans.find? (fun other => other.id = span.id) = some span := by
    cases hfound : spans.find? fun other => other.id = span.id with
    | none => exact absurd (decide_eq_true rfl) (List.find?_eq_none.mp hfound span hspan)
    | some other =>
      have hid : other.id = span.id := by simpa using List.find?_some hfound
      rw [List.inj_on_of_nodup_map hnodup (List.mem_of_find?_eq_some hfound) hspan hid]
  rw [parentOf, hfind]
  rfl

theorem parentOf_eq_none (hid : id ∉ spans.map Span.id) : parentOf spans id = none := by
  have hfind : spans.find? (fun span => span.id = id) = none := by
    refine List.find?_eq_none.mpr fun span hspan heq => hid ?_
    exact of_decide_eq_true heq ▸ List.mem_map_of_mem hspan
  rw [parentOf, hfind]
  rfl

/-- The links are those to the parents, if each span has one at most. -/
theorem parentOf_eq_some_iff (hnodup : (spans.map Span.id).Nodup)
    (hlinks : linksBy spans = (objectOrder Span.id spans).flatMap fun span =>
      (span.parents (spans.map Span.id)).map fun parent => (span.id, parent))
    (hone : ∀ span ∈ spans, (span.parents (spans.map Span.id)).length ≤ 1) :
    parentOf spans id = some p ↔ (id, p) ∈ linksBy spans := by
  rw [mem_linksBy hlinks]
  constructor
  · intro h
    by_cases hid : id ∈ spans.map Span.id
    · obtain ⟨span, hspan, rfl⟩ := List.mem_map.mp hid
      rw [parentOf_span hnodup hspan] at h
      exact ⟨span, hspan, rfl, List.mem_of_head? h⟩
    · rw [parentOf_eq_none hid] at h
      cases h
  · rintro ⟨span, hspan, rfl, hparent⟩
    rw [parentOf_span hnodup hspan]
    match hparents : span.parents (spans.map Span.id) with
    | [] => rw [hparents] at hparent; exact absurd hparent List.not_mem_nil
    | q :: rest =>
      have hq : q ∈ span.parents (spans.map Span.id) := hparents ▸ List.mem_cons_self
      rw [eq_of_length_le_one (hone span hspan) hparent hq]
      rfl

theorem oneTrace_traceIdsBy : OneTrace (spans.flatMap Span.childReferences) ↔
    (traceIdsBy spans).length = 1 ∧ none ∉ traceIdsBy spans := by
  have hperm : (spans.flatMap Span.childReferences).Perm
      ((objectOrder Span.id spans).flatMap Span.childReferences) :=
    (objectOrder_perm Span.id spans).symm.flatMap_right Span.childReferences
  refine Iff.trans (and_congr (not_congr ?_) ?_) oneTrace_iff
  · constructor
    · exact fun h => (hperm.symm.trans (h ▸ List.Perm.refl _)).eq_nil
    · exact fun h => (hperm.trans (h ▸ List.Perm.refl _)).eq_nil
  · exact exists_congr fun traceId => forall_congr' fun ref => imp_congr_left hperm.mem_iff

/-- A node that is not a child is one of the roots. -/
theorem mem_roots_of_occurs {roots : List JsText} {links : List (JsText × JsText)}
    (h : Occurs roots (childrenOf links) id) (hid : id ∉ links.map Prod.fst) : id ∈ roots := by
  suffices hentered : id ∈ roots ∨ id ∈ links.map Prod.fst from hentered.resolve_right hid
  refine h.rec_on (P := fun id => id ∈ roots ∨ id ∈ links.map Prod.fst) (fun id => .inl) fun p id _ hmem => ?_
  exact .inr (List.mem_map_of_mem (f := Prod.fst) (mem_childrenOf.mp hmem))

/-- A span has no parent if it has no link. -/
theorem parents_eq_nil_iff (hnodup : (spans.map Span.id).Nodup) (hspan : span ∈ spans)
    (hlinks : linksBy spans = (objectOrder Span.id spans).flatMap fun span =>
      (span.parents (spans.map Span.id)).map fun parent => (span.id, parent)) :
    span.parents (spans.map Span.id) = [] ↔ span.id ∉ (linksBy spans).map Prod.fst := by
  rw [List.eq_nil_iff_forall_not_mem]
  constructor
  · intro h hmem
    obtain ⟨⟨id, p⟩, hlink, hid⟩ := List.mem_map.mp hmem
    obtain ⟨other, hother, rfl, hparent⟩ := (mem_linksBy hlinks).mp hlink
    obtain rfl := List.inj_on_of_nodup_map hnodup hother hspan hid
    exact h p hparent
  · intro h p hparent
    exact h (List.mem_map.mpr ⟨(span.id, p), (mem_linksBy hlinks).mpr ⟨span, hspan, rfl, hparent⟩, rfl⟩)

namespace Conserving

theorem links_eq (h : Conserving spans) : linksBy spans = (objectOrder Span.id spans).flatMap fun span =>
    (span.parents (spans.map Span.id)).map fun parent => (span.id, parent) := linksBy_eq h.leads h.unnamed

theorem parentOf_iff (hnodup : (spans.map Span.id).Nodup) (h : Conserving spans) :
    parentOf spans id = some p ↔ (id, p) ∈ linksBy spans := parentOf_eq_some_iff hnodup h.links_eq h.one_parent

/-- A node without parent is a root once. -/
theorem rootCount_eq (hnodup : (spans.map Span.id).Nodup) (h : Conserving spans) {e : JsText × TraceTree}
    (he : e ∈ topsBy spans) :
    (e.2.isRoot = true ∨ none ∉ traceIdsBy spans) ∧ rootCount (traceIdsBy spans) e = 1 := by
  have hone : OneTrace (spans.flatMap Span.childReferences) → (e.2.isRoot = true ∨ none ∉ traceIdsBy spans) ∧
      rootCount (traceIdsBy spans) e = 1 := by
    intro hone
    obtain ⟨hlength, hnone⟩ := oneTrace_traceIdsBy.mp hone
    exact ⟨.inr hnone, by rw [rootCount, hlength, ite_self]⟩
  obtain ⟨he, htop⟩ := mem_topsBy.mp he
  rcases mem_nodesBy.mp he with ⟨span, hspan, rfl⟩ | ⟨id, hid, rfl⟩
  · rcases h.root span hspan ((parents_eq_nil_iff hnodup hspan h.links_eq).mpr htop) with hroot | htrace
    · exact ⟨.inl (isRoot_span.mpr hroot), if_pos (isRoot_span.mpr hroot)⟩
    · exact hone htrace
  · obtain ⟨⟨span, hspan, href⟩, hne, hids, -⟩ := mem_createdBy.mp hid
    exact hone (h.missing ⟨span, hspan, id, hids, hne, href⟩)

theorem mem_roots_iff (hnodup : (spans.map Span.id).Nodup) (h : Conserving spans) :
    id ∈ rootsBy spans ↔ id ∈ namesOf spans (createdBy spans) ∧ parentOf spans id = none := by
  rw [mem_rootsBy, ← fst_nodesBy]
  constructor
  · rintro ⟨e, he, -, rfl⟩
    obtain ⟨he, htop⟩ := mem_topsBy.mp he
    refine ⟨List.mem_map_of_mem he, Option.eq_none_iff_forall_ne_some.mpr fun p hp => htop ?_⟩
    exact List.mem_map_of_mem (f := Prod.fst) ((h.parentOf_iff hnodup).mp hp)
  · rintro ⟨hid, hnone⟩
    obtain ⟨e, he, rfl⟩ := List.mem_map.mp hid
    have htop : e ∈ topsBy spans := by
      refine mem_topsBy.mpr ⟨he, fun hmem => ?_⟩
      obtain ⟨⟨id, p⟩, hlink, hid⟩ := List.mem_map.mp hmem
      rw [← hid, (h.parentOf_iff hnodup).mpr hlink] at hnone
      cases hnone
    exact ⟨e, htop, by rw [(h.rootCount_eq hnodup htop).2]; exact Nat.one_pos, rfl⟩

theorem nodup_entries (hnodup : (spans.map Span.id).Nodup) (h : Conserving spans) :
    (rootsBy spans ++ (linksBy spans).map Prod.fst).Nodup := by
  refine List.nodup_append.mpr ⟨?_, (nodup_linksBy hnodup h.links_eq).mpr h.one_parent, ?_⟩
  · exact (nodup_rootsBy hnodup).mpr fun e he => (h.rootCount_eq hnodup he).2.le
  · rintro v hv w hw rfl
    obtain ⟨⟨id, p⟩, hlink, rfl⟩ := List.mem_map.mp hw
    have hnone := ((h.mem_roots_iff hnodup).mp hv).2
    rw [(h.parentOf_iff hnodup).mpr hlink] at hnone
    cases hnone

theorem conserves (hnodup : (spans.map Span.id).Nodup) (h : Conserving spans) :
    ∃ forest, spanToTreeUtil spans = .ok forest ∧ forest.Conserves spans := by
  have htops : ∀ e ∈ topsBy spans, e.2.isRoot = true ∨ none ∉ traceIdsBy spans := fun e he =>
    (h.rootCount_eq hnodup he).1
  obtain ⟨forest, hforest⟩ := exists_addRoots ⟨nodesBy spans, [], []⟩ htops
  have hok : spanToTreeUtil spans = .ok forest := by rw [spanToTreeUtil_eq hnodup h.named, if_pos h.leads, hforest]
  obtain ⟨-, -, hchildren, hnodes, hroots⟩ := of_spanToTreeUtil hnodup h.named hok
  have hmemRoots : ∀ {id}, id ∈ forest.roots ↔ id ∈ namesOf spans (createdBy spans) ∧ parentOf spans id = none :=
    hroots.mem_iff.trans (h.mem_roots_iff hnodup)
  have hentries : (forest.roots ++ (linksBy spans).map Prod.fst).Nodup :=
    (hroots.append_right _).nodup_iff.mpr (h.nodup_entries hnodup)
  have hoccurs : ∀ id ∈ namesOf spans (createdBy spans), Occurs forest.roots (childrenOf (linksBy spans)) id := by
    intro id hid
    refine Forest.occurs_of_inTree (parentOf spans) hid ?_ (fun v hv p hp => ?_) fun v hv hnone => ?_
    · by_cases hspan : id ∈ spans.map Span.id
      · obtain ⟨span, hmem, rfl⟩ := List.mem_map.mp hspan
        exact h.inTree span hmem
      · exact ⟨0, .root (parentOf_eq_none hspan)⟩
    · have hlink := (h.parentOf_iff hnodup).mp hp
      exact ⟨hlink, (linksBy_among _ hlink).2⟩
    · exact hmemRoots.mpr ⟨hv, hnone⟩
  refine ⟨forest, hok, ?_, ?_, ?_⟩
  · intro span hspan
    rw [hchildren]
    exact (hoccurs span.id (List.mem_append_left _ (List.mem_map_of_mem hspan))).once hentries
  · intro id hid hoccurs
    rw [hchildren] at hoccurs ⊢
    refine ⟨?_, hoccurs.once hentries⟩
    have hname : id ∈ namesOf spans (createdBy spans) :=
      hoccurs.rec_on (fun id hid => (hmemRoots.mp hid).1) fun p id _ hmem =>
        List.mem_append_left _ (linksBy_among _ (mem_childrenOf.mp hmem)).1
    have hcreated := (List.mem_append.mp hname).resolve_left hid
    have hnode : linked (linksBy spans) (id, missingSpan) ∈ nodesBy spans :=
      mem_nodesBy.mpr (.inr ⟨id, hcreated, rfl⟩)
    have hlookup := lookup_nodesBy hnodup hnode
    rw [hnodes]
    exact (congrArg (fun found => Option.any TraceTree.isMissing found) hlookup).trans rfl
  · intro parent id hmem
    rw [hchildren] at hmem
    obtain ⟨span, hspan, hid, hparent⟩ := (mem_linksBy h.links_eq).mp (mem_childrenOf.mp hmem)
    obtain ⟨ref, href, hspanId⟩ := List.mem_filterMap.mp (List.mem_of_mem_filter hparent)
    exact ⟨span, hspan, hid, ref, href, hspanId⟩

end Conserving

/-- A missing span is referenced, so that there are trace ids, for each of which it is a root. -/
theorem missing_mem_rootsBy (hid : id ∈ createdBy spans) :
    ∃ e ∈ topsBy spans, e.2.isRoot = false ∧ e.1 = id ∧ id ∈ rootsBy spans := by
  obtain ⟨⟨span, hspan, ref, href, hspanId⟩, -, hids, -⟩ := mem_createdBy.mp hid
  have htop : linked (linksBy spans) (id, missingSpan) ∈ topsBy spans := by
    refine mem_topsBy.mpr ⟨mem_nodesBy.mpr (.inr ⟨id, hid, rfl⟩), fun hmem => hids ?_⟩
    obtain ⟨link, hlink, hfst⟩ := List.mem_map.mp hmem
    have hid : link.1 = id := hfst
    exact hid ▸ (linksBy_among link hlink).1
  have htrace : ref.traceId ∈ traceIdsBy spans :=
    mem_traceIds.mpr ⟨ref, List.mem_flatMap.mpr ⟨span, mem_ordered.mpr hspan, href⟩, rfl⟩
  exact ⟨_, htop, rfl, rfl, mem_rootsBy.mpr ⟨_, htop, List.length_pos_of_mem htrace, rfl⟩⟩

/-- A root that is there once has a reference to no span, or one trace is referenced. -/
theorem isRoot_or_oneTrace (hnodup : (spans.map Span.id).Nodup) (hroots : (rootsBy spans).Nodup)
    {e : JsText × TraceTree} (he : e ∈ topsBy spans) (htraces : e.2.isRoot = true ∨ none ∉ traceIdsBy spans)
    (hroot : e.1 ∈ rootsBy spans) : e.2.isRoot = true ∨ OneTrace (spans.flatMap Span.childReferences) := by
  refine or_iff_not_imp_left.mpr fun hnot => oneTrace_traceIdsBy.mpr ⟨?_, htraces.resolve_left hnot⟩
  have hcount : rootCount (traceIdsBy spans) e = (traceIdsBy spans).length := if_neg hnot
  have hle := (nodup_rootsBy hnodup).mp hroots e he
  obtain ⟨e', he', hpos, hid⟩ := mem_rootsBy.mp hroot
  have hsame : e' = e := by
    have hkeys : ((nodesBy spans).map Prod.fst).Nodup := fst_nodesBy ▸ nodup_names hnodup
    exact List.inj_on_of_nodup_map hkeys (mem_topsBy.mp he').1 (mem_topsBy.mp he).1 hid
  rw [hsame, hcount] at hpos
  exact Nat.le_antisymm (hcount ▸ hle) hpos

theorem conserving_of_conserves (hnodup : (spans.map Span.id).Nodup) (hok : spanToTreeUtil spans = .ok forest)
    (h : forest.Conserves spans) : Conserving spans := by
  have hnamed : ∀ span ∈ spans, span.id ≠ prototypeKey := fun span hspan heq =>
    not_occurs_prototypeKey hok (heq ▸ (h.spans_once span hspan).occurs)
  obtain ⟨hleads, htops, hchildren, hnodes, hroots⟩ := of_spanToTreeUtil hnodup hnamed hok
  have honce := h.spans_once
  have hmissing := h.missing
  have hreferences := h.references
  rw [hchildren] at honce hmissing hreferences
  have hentries : (forest.roots ++ (linksBy spans).map Prod.fst).Nodup := by
    refine Forest.nodup_of_occursOnce (fun link hlink => ?_) fun id hid => ?_
    · rcases List.mem_append.mp (linksBy_among link hlink).2 with hspan | hmem
      · obtain ⟨span, hspan, hid⟩ := List.mem_map.mp hspan
        exact hid ▸ (honce span hspan).occurs
      · obtain ⟨-, -, -, -, hroot⟩ := missing_mem_rootsBy hmem
        exact Forest.occurs_of_mem_roots (hroots.mem_iff.mpr hroot)
    · by_cases hspan : id ∈ spans.map Span.id
      · obtain ⟨span, hmem, rfl⟩ := List.mem_map.mp hspan
        exact honce span hmem
      · exact (hmissing id hspan hid).2
  obtain ⟨hnodupRoots, hnodupLinks, hdisjoint⟩ := List.nodup_append.mp hentries
  have hunnamed : UnnamedNowhere (spans.map Span.id) (objectOrder Span.id spans) := by
    refine (unnamedNowhere_of_links hnodupLinks (fun link hlink span hspan hid => ?_) ?_).1
    · obtain ⟨other, hother, hother', ref, href, hspanId⟩ := hreferences link.2 link.1 (mem_childrenOf.mpr hlink)
      obtain rfl := List.inj_on_of_nodup_map hnodup hother (mem_ordered.mp hspan) (hother'.trans hid.symm)
      exact ⟨ref, href, hspanId⟩
    · exact ((objectOrder_perm Span.id spans).map Span.id).nodup_iff.mpr hnodup
  have hlinks := linksBy_eq hleads hunnamed
  have hone := (nodup_linksBy hnodup hlinks).mp hnodupLinks
  have hparent : ∀ {id p}, parentOf spans id = some p ↔ (id, p) ∈ linksBy spans :=
    parentOf_eq_some_iff hnodup hlinks hone
  have htop : ∀ e ∈ topsBy spans, e.1 ∈ rootsBy spans → e.2.isRoot = true ∨
      OneTrace (spans.flatMap Span.childReferences) := fun e he =>
    isRoot_or_oneTrace hnodup (hroots.nodup_iff.mp hnodupRoots) he (htops e he)
  refine ⟨hnamed, hleads, hunnamed, hone, fun span hspan => ?_, fun span hspan hnil => ?_, ?_⟩
  · refine Forest.inTree_of_occurs (honce span hspan).occurs (fun link hlink => hparent.mpr hlink) fun v hv => ?_
    refine Option.eq_none_iff_forall_ne_some.mpr fun p hp => hdisjoint v hv v ?_ rfl
    exact List.mem_map_of_mem (f := Prod.fst) (hparent.mp hp)
  · have hlink := (parents_eq_nil_iff hnodup hspan hlinks).mp hnil
    have hnode : linked (linksBy spans) (span.id, spanObject span) ∈ topsBy spans :=
      mem_topsBy.mpr ⟨mem_nodesBy.mpr (.inl ⟨span, hspan, rfl⟩), hlink⟩
    have hroot : span.id ∈ forest.roots := mem_roots_of_occurs (honce span hspan).occurs hlink
    exact (htop _ hnode (hroots.mem_iff.mp hroot)).imp_left isRoot_span.mp
  · rintro ⟨span, hspan, id, hids, hne, href⟩
    obtain ⟨ref, hmem, hspanId⟩ := href
    have hinherited : id ∉ inheritedNames := by
      have hlead := hleads span hspan ref hmem
      rw [Reference.Leads, parentKey_of_some hspanId] at hlead
      exact hlead.resolve_left hids
    obtain ⟨e, he, hnot, rfl, hroot⟩ :=
      missing_mem_rootsBy (mem_createdBy.mpr ⟨⟨span, hspan, ref, hmem, hspanId⟩, hne, hids, hinherited⟩)
    exact (htop e he hroot).resolve_left (by rw [hnot]; exact Bool.false_ne_true)

/-- **When the forest conserves the spans.** -/
theorem conserves_iff (spans : List Span) (hnodup : (spans.map Span.id).Nodup) :
    (∃ forest, spanToTreeUtil spans = .ok forest ∧ forest.Conserves spans) ↔ Conserving spans := by
  constructor
  · rintro ⟨forest, hok, h⟩
    exact conserving_of_conserves hnodup hok h
  · exact fun h => h.conserves hnodup

/-- A root, with a reference to no span, and its child. -/
def rootAndChild : List Span :=
  [⟨JsText.of "a", [JsText.of "{TraceId=t, SpanId=, RefType=CHILD_OF}"], []⟩,
    ⟨JsText.of "b", [JsText.of "{TraceId=t, SpanId=a, RefType=CHILD_OF}"], []⟩]

theorem rootAndChild_conserves :
    ∃ forest, spanToTreeUtil rootAndChild = .ok forest ∧ forest.Conserves rootAndChild := by
  have hsome : ∀ span ∈ rootAndChild, ∀ ref ∈ span.childReferences,
      ref.spanId ≠ none ∧ ∀ id ∈ ref.spanId, id = [] ∨ id ∈ rootAndChild.map Span.id := by decide +kernel
  have hunnamed : ∀ span ∈ objectOrder Span.id rootAndChild, ¬ span.HasUnnamed := by
    rintro span hspan ⟨ref, href, hnone⟩
    exact (hsome span (mem_ordered.mp hspan) ref href).1 hnone
  refine (conserves_iff rootAndChild (by decide)).mpr
    ⟨by decide, by decide +kernel, ⟨?_, ?_⟩, by decide +kernel, ?_, ?_, ?_⟩
  · exact fun span hspan h => absurd h (hunnamed span hspan)
  · exact List.pairwise_of_forall_mem_list fun _ _ span' hspan' _ => hunnamed span' hspan'
  · refine List.forall_mem_cons.mpr ⟨⟨0, .root (by decide +kernel)⟩, List.forall_mem_singleton.mpr ?_⟩
    exact ⟨1, .child (p := JsText.of "a") (by decide +kernel) (.root (by decide +kernel))⟩
  · refine List.forall_mem_cons.mpr ⟨fun _ => .inl ?_, List.forall_mem_singleton.mpr fun hnil => ?_⟩
    · unfold Span.References
      decide +kernel
    · exact absurd hnil (by decide +kernel)
  · rintro ⟨span, hspan, id, hid, hne, ref, href, hspanId⟩
    exact absurd ((hsome span hspan ref href).2 id hspanId) (not_or_intro hne hid)

/-- A span without references is lost, as no trace is referenced. -/
theorem not_conserves_unreferenced : ¬ ∀ spans : List Span, (spans.map Span.id).Nodup →
    ∃ forest, spanToTreeUtil spans = .ok forest ∧ forest.Conserves spans := by
  intro h
  obtain ⟨forest, hok, hconserves⟩ := h [⟨JsText.of "a", [], []⟩] (by decide)
  obtain ⟨path, hpath, -⟩ := hconserves.spans_once _ List.mem_cons_self
  have hforest : forest = ⟨[(JsText.of "a", spanObject ⟨JsText.of "a", [], []⟩)], [], []⟩ := by
    refine Except.ok.inj (hok.symm.trans ?_)
    decide +kernel
  have hnone : ∀ path : List Nat, Forest.nodeAt forest.roots forest.children path = none := by
    intro path
    by_contra hsome
    obtain ⟨v, hv⟩ := Option.ne_none_iff_exists'.mp hsome
    refine (Forest.Occurs.rec_on (P := fun _ => False) ⟨path, hv⟩ (fun v hmem => ?_) fun _ _ hfalse _ => hfalse)
    rw [hforest] at hmem
    exact List.not_mem_nil hmem
  rw [hnone] at hpath
  cases hpath

end Conservation

end SpanToTree

end Frontend
