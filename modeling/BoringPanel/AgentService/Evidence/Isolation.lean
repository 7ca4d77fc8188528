import BoringPanel.AgentService.Evidence.Captures
import BoringPanel.AgentService.Evidence.Endpoints

/-!
# Evidence of other users' threads

Almost all endpoints check that the thread is the user's (`ownsThread`). `PATCH /api/evidence/:evidenceId` and
the tools of `/mcp` do not, and reach the evidence of another user's thread in the same organization
(`Reaches`). All other requests leave it alone (`untouched_handle_iff`), in every run of them
(`isolated_iff_of_run`).
-/

namespace AgentService.Evidence

variable {N : Type} [JsNumber N] (lib : EvidenceLibrary N) (t : Turn) (user : AuthenticatedUser)

/-! ### Items of a thread -/

def itemsOf (threadId : JsText) (db : EvidenceDb N) : List (EvidenceItem N) :=
  db.items.filter fun item => item.threadId = threadId

/-- The items of a thread are as they were, none is added, and none is part of the answer. -/
structure Untouched (threadId : JsText) (s : ServerState N) (answer : Answer N) : Prop where
  items : itemsOf threadId answer.1.db = itemsOf threadId s.db
  answer : ∀ item ∈ answer.2, item.threadId ≠ threadId

/-- A tool with the context of a thread reads an item of it, or records one that is not there. -/
def ToolReaches (context : EvidenceCaptureContext) (s : ServerState N) : McpTool N → Prop
  | .capture tool data => ∃ content ∈ data,
    s.db.conflicts ((tool.input user context content).row lib.toTexts t) = false
  | .listEvidence includeInactive => ∃ item ∈ itemsOf context.threadId s.db, item.orgId = user.orgId ∧
    (includeInactive || isUsable item)
  | .getEvidenceChain => ∃ item ∈ itemsOf context.threadId s.db, item.orgId = user.orgId
  | .searchMemory => ∃ item ∈ itemsOf context.threadId s.db, item.orgId = user.orgId ∧ isUsable item
  | .remember evidenceIds =>
    memorySources lib user context.threadId evidenceIds evidenceIds.eraseDups.length s.db ≠ []
  | .other => False

/-- The request is a patch of an item of the thread, or a call of a tool with the thread in its header
that reaches it. -/
def Reaches (threadId : JsText) (s : ServerState N) : HttpRequest N → Prop
  | .patchEvidence evidenceId _ =>
    ∃ item ∈ itemsOf threadId s.db, item.id = evidenceId ∧ item.orgId = user.orgId
  | .mcp threadId' traceId query tool =>
    threadId' = threadId ∧ (threadId ≠ [] ∧ traceId ≠ []) ∧
      ToolReaches lib t user ⟨threadId', traceId, query⟩ s tool
  | _ => False

/-- The primary keys are unique, and workflows run for the owner of their thread. -/
structure ServerState.Sound (s : ServerState N) : Prop where
  threads : (s.db.threads.map AgentThread.id).Nodup
  ids : (s.db.items.map EvidenceItem.id).Nodup
  runs : ∀ run ∈ s.runs, ∃ thread ∈ s.db.threads, thread.id = run.threadId ∧ thread.userId = run.userId

variable {lib t user} {threadId : JsText} {db : EvidenceDb N} {s s' : ServerState N}

/-! ### What the functions write -/

omit [JsNumber N] in
theorem mem_listEvidence {orgId : JsText} {item : EvidenceItem N} :
    item ∈ listEvidence lib db threadId orgId ↔
      item ∈ db.items ∧ item.threadId = threadId ∧ item.orgId = orgId := by
  rw [listEvidence, (lib.order.perm _ _).mem_iff, List.mem_filter, decide_eq_true_eq]

omit [JsNumber N] in
theorem mem_itemsOf {item : EvidenceItem N} :
    item ∈ itemsOf threadId db ↔ item ∈ db.items ∧ item.threadId = threadId := by
  rw [itemsOf, List.mem_filter, decide_eq_true_eq]

omit [JsNumber N] in
theorem threads_insertOrIgnore (row : EvidenceItem N) : (db.insertOrIgnore row).threads = db.threads := by
  rw [EvidenceDb.insertOrIgnore]
  split
  · rfl
  · rfl

/-- `recordEvidence` inserts at most its row. -/
theorem recordEvidence_fst (input : RecordInput N) :
    (recordEvidence lib t input db).1.threads = db.threads ∧
      (recordEvidence lib t input db).1.items =
        if db.accepts input then (db.insertOrIgnore (input.row lib.toTexts t)).items else db.items := by
  rw [recordEvidence]
  split
  · dsimp only
    split
    · exact ⟨threads_insertOrIgnore _, rfl⟩
    · split
      · exact ⟨threads_insertOrIgnore _, rfl⟩
      · exact ⟨threads_insertOrIgnore _, rfl⟩
  · exact ⟨rfl, rfl⟩

omit [JsNumber N] in
theorem nodup_insertOrIgnore (hids : (db.items.map EvidenceItem.id).Nodup) (row : EvidenceItem N) :
    ((db.insertOrIgnore row).items.map EvidenceItem.id).Nodup := by
  rw [EvidenceDb.insertOrIgnore]
  split
  · exact hids
  · rename_i hnew
    show ((db.items ++ [row]).map EvidenceItem.id).Nodup
    rw [List.map_append]
    refine List.nodup_append.mpr ⟨hids, List.nodup_singleton _, ?_⟩
    rintro id hid id' hid' rfl
    obtain ⟨old, hold, rfl⟩ := List.mem_map.mp hid
    refine hnew (List.any_eq_true.mpr ⟨old, hold, decide_eq_true (.inl ?_)⟩)
    exact List.mem_singleton.mp hid'

omit [JsNumber N] in
theorem threadId_of_mem {orgId : JsText} {item : EvidenceItem N}
    (h : item ∈ listEvidence lib db threadId orgId) : item.threadId = threadId :=
  (mem_listEvidence.mp h).2.1

omit [JsNumber N] in
/-- The rows of another thread. -/
theorem itemsOf_insertOrIgnore {row : EvidenceItem N} (h : row.threadId ≠ threadId) :
    itemsOf threadId (db.insertOrIgnore row) = itemsOf threadId db := by
  rw [EvidenceDb.insertOrIgnore]
  split
  · rfl
  · show (db.items ++ [row]).filter _ = _
    rw [List.filter_append, List.filter_singleton, decide_eq_false h]
    exact List.append_nil _

theorem itemsOf_recordEvidence {input : RecordInput N} (h : input.context.threadId ≠ threadId) :
    itemsOf threadId (recordEvidence lib t input db).1 = itemsOf threadId db := by
  unfold itemsOf
  rw [(recordEvidence_fst input).2]
  split
  · exact itemsOf_insertOrIgnore h
  · rfl

/-- Captures of a thread change neither the threads nor the rows of another thread. -/
theorem recordAll_spec {threadId' : JsText} (captures : List (Capture N))
    (hids : (db.items.map EvidenceItem.id).Nodup) :
    (recordAll lib user threadId' captures db).threads = db.threads ∧
      ((recordAll lib user threadId' captures db).items.map EvidenceItem.id).Nodup ∧
      (threadId' ≠ threadId →
        itemsOf threadId (recordAll lib user threadId' captures db) = itemsOf threadId db) := by
  induction captures generalizing db with
  | nil => exact ⟨rfl, hids, fun _ => rfl⟩
  | cons capture captures ih =>
    obtain ⟨hthreads, hitems⟩ :=
      @recordEvidence_fst N _ lib capture.2 db (capture.1.within user threadId')
    have hnodup : (((recordEvidence lib capture.2 (capture.1.within user threadId') db).1).items.map
        EvidenceItem.id).Nodup := by
      rw [hitems]
      split
      · exact nodup_insertOrIgnore hids _
      · exact hids
    obtain ⟨hthreads', hids', hothers⟩ := ih hnodup
    refine ⟨hthreads'.trans hthreads, hids', fun hne => (hothers hne).trans ?_⟩
    exact itemsOf_recordEvidence hne

omit [JsNumber N] in
theorem foldl_addAction {α : Type} (action : α → EvidenceAction) (l : List α) :
    (l.foldl (fun db a => db.addAction (action a)) db).items = db.items ∧
      (l.foldl (fun db a => db.addAction (action a)) db).threads = db.threads := by
  induction l generalizing db with
  | nil => exact ⟨rfl, rfl⟩
  | cons a l ih => exact ih

omit [JsNumber N] in
theorem foldl_addUse (userId instruction : JsText) (now : Int) (ids : List JsText) :
    (ids.foldl (fun db id => db.addUse id userId instruction now) db).items = db.items ∧
      (ids.foldl (fun db id => db.addUse id userId instruction now) db).threads = db.threads := by
  have huse : ∀ (db : EvidenceDb N) id, (db.addUse id userId instruction now).items = db.items ∧
      (db.addUse id userId instruction now).threads = db.threads := by
    intro db id
    rw [EvidenceDb.addUse]
    split
    · exact ⟨rfl, rfl⟩
    · exact ⟨rfl, rfl⟩
  induction ids generalizing db with
  | nil => exact ⟨rfl, rfl⟩
  | cons id ids ih =>
    obtain ⟨hitems, hthreads⟩ := huse db id
    exact ⟨ih.1.trans hitems, ih.2.trans hthreads⟩

omit [JsNumber N] in
theorem selectById_eq_some {id orgId : JsText} {current : EvidenceItem N}
    (h : db.selectById id orgId = some current) :
    current ∈ db.items ∧ current.id = id ∧ current.orgId = orgId := by
  refine ⟨List.mem_of_find?_eq_some h, ?_⟩
  simpa using List.find?_some h

omit [JsNumber N] in
/-- `updateEvidence` changes the row that it has read, and gives it. -/
theorem updateEvidence_some {input : UpdateInput} {current : EvidenceItem N}
    (h : db.selectById input.evidenceId input.user.orgId = some current) :
    (updateEvidence lib t input db).1.threads = db.threads ∧
      (∃ f, (updateEvidence lib t input db).1.items = (db.updateItem current.id f).items) ∧
        ∃ item, (updateEvidence lib t input db).2 = some item ∧ item.threadId = current.threadId := by
  obtain ⟨hcurrent, -, horg⟩ := selectById_eq_some h
  rw [updateEvidence, h]
  dsimp only
  obtain ⟨hitems, hthreads⟩ := @foldl_addAction N
    (db.updateItem current.id (EvidencePatch.write (input.patch, t.now) current.toEvidenceRow)) _
    (fun action => input.action current action t.now) (actionsOf input.patch current.toEvidenceRow)
  refine ⟨hthreads, ⟨_, hitems⟩, ?_⟩
  have hmem : ∃ item, item ∈ getEvidenceByIds lib ((actionsOf input.patch current.toEvidenceRow).foldl
      (fun db action => db.addAction (input.action current action t.now))
      (db.updateItem current.id (EvidencePatch.write (input.patch, t.now) current.toEvidenceRow)))
      current.threadId input.user.orgId [current.id] := by
    refine ⟨current.withRow (EvidencePatch.write (input.patch, t.now) current.toEvidenceRow
      current.toEvidenceRow), List.mem_filter.mpr ⟨mem_listEvidence.mpr ⟨?_, rfl, horg⟩,
        decide_eq_true List.mem_cons_self⟩⟩
    rw [hitems]
    exact List.mem_map.mpr ⟨current, hcurrent, if_pos rfl⟩
  obtain ⟨item, hitem⟩ := hmem
  cases hlist : getEvidenceByIds lib _ current.threadId input.user.orgId [current.id] with
  | nil =>
    rw [hlist] at hitem
    cases hitem
  | cons first rest =>
    refine ⟨first, rfl, ?_⟩
    have hfirst := List.mem_cons_self (a := first) (l := rest)
    rw [← hlist] at hfirst
    exact (mem_listEvidence.mp (List.mem_filter.mp hfirst).1).2.1

omit [JsNumber N] in
/-- A row of another thread is changed. -/
theorem itemsOf_updateItem {id : JsText} {f : EvidenceRow → EvidenceRow}
    (h : ∀ item ∈ itemsOf threadId db, item.id ≠ id) :
    itemsOf threadId (db.updateItem id f) = itemsOf threadId db := by
  show (db.items.map _).filter _ = _
  rw [List.filter_map]
  have hfilter : (db.items.filter ((fun item => decide (item.threadId = threadId)) ∘ fun item =>
      if item.id = id then item.withRow (f item.toEvidenceRow) else item)) =
        itemsOf threadId db := by
    refine List.filter_congr fun item _ => ?_
    show decide ((if item.id = id then _ else item : EvidenceItem N).threadId = threadId) = _
    split
    · rfl
    · rfl
  rw [hfilter]
  refine (List.map_congr_left fun item hitem => ?_).trans (List.map_id _)
  exact if_neg (h item hitem)

/-! ### What the handlers do -/

section Handlers

variable {thread : AgentThread}

omit [JsNumber N] in
/-- Who owns a thread does not own the thread of somebody else. -/
theorem ne_of_ownsThread (hs : s.Sound) (hthread : thread ∈ s.db.threads)
    (hother : thread.userId ≠ user.id) (h : s.db.ownsThread threadId user.id user.orgId = true) :
    threadId ≠ thread.id := by
  rintro rfl
  obtain ⟨own, hown, heq⟩ := List.any_eq_true.mp h
  obtain ⟨hid, huser, -⟩ := of_decide_eq_true heq
  obtain rfl := List.inj_on_of_nodup_map hs.threads hown hthread hid
  exact hother huser

omit [JsNumber N] in
theorem ne_of_run (hs : s.Sound) (hthread : thread ∈ s.db.threads) (hother : thread.userId ≠ user.id)
    {run : WorkflowRun} (hrun : run ∈ s.runs) (huser : run.userId = user.id) :
    run.threadId ≠ thread.id := by
  intro hid
  obtain ⟨own, hown, hownId, hownUser⟩ := hs.runs run hrun
  obtain rfl := List.inj_on_of_nodup_map hs.threads hown hthread (hownId.trans hid)
  exact hother (hownUser.trans huser)

omit [JsNumber N] in
/-- A handler that asks for the owner first does not reach the thread, if what it does otherwise does
not. -/
theorem untouched_ifOwner (hs : s.Sound) (hthread : thread ∈ s.db.threads)
    (hother : thread.userId ≠ user.id) {answer : Answer N}
    (h : threadId ≠ thread.id → Untouched thread.id s answer) :
    Untouched thread.id s (ifOwner user threadId s answer) := by
  rw [ifOwner]
  split
  · rename_i hown
    exact h (ne_of_ownsThread hs hthread hother hown)
  · exact ⟨rfl, fun _ hitem => absurd hitem List.not_mem_nil⟩

omit [JsNumber N] in
/-- What is read of another thread is not of this one. -/
theorem untouched_read (hne : threadId ≠ thread.id) {l : List (EvidenceItem N)}
    (hl : ∀ item ∈ l, item.threadId = threadId)
    (hitems : itemsOf thread.id s'.db = itemsOf thread.id s.db) :
    Untouched thread.id s (s', l) :=
  ⟨hitems, fun item hitem hid => hne ((hl item hitem).symm.trans hid)⟩

omit [JsNumber N] in
theorem threadId_of_mem_memorySources {evidenceIds : List JsText} {count : Nat}
    {item : EvidenceItem N} (h : item ∈ memorySources lib user threadId evidenceIds count db) :
    item.threadId = threadId := by
  rw [memorySources] at h
  split at h
  · exact threadId_of_mem (List.mem_filter.mp h).1
  · cases h

theorem untouched_listThreadEvidence (hs : s.Sound) (hne : threadId ≠ thread.id)
    (history : List (Capture N)) :
    Untouched thread.id s (listThreadEvidence lib user threadId history s) := by
  rw [listThreadEvidence]
  split
  · exact untouched_read hne (fun _ => threadId_of_mem) ((recordAll_spec history hs.ids).2.2 hne)
  · exact untouched_read hne (fun _ => threadId_of_mem) rfl

omit [JsNumber N] in
theorem untouched_reviseEvidence (hne : threadId ≠ thread.id) (evidenceIds : List JsText)
    (instruction : JsText) :
    Untouched thread.id s (reviseEvidence lib t user threadId evidenceIds instruction s) := by
  rw [reviseEvidence]
  dsimp only
  split
  · exact ⟨rfl, fun _ hitem => absurd hitem List.not_mem_nil⟩
  · refine untouched_read hne (fun item hitem => ?_) ?_
    · rcases List.mem_append.mp hitem with hitem | hitem
      · exact threadId_of_mem (List.mem_filter.mp (List.mem_filter.mp hitem).1).1
      · exact threadId_of_mem (List.mem_filter.mp hitem).1
    · exact congrArg (List.filter _) (foldl_addUse _ _ _ _).1

omit [JsNumber N] in
theorem selectById_eq_none {id orgId : JsText} (h : db.selectById id orgId = none)
    {item : EvidenceItem N} (hitem : item ∈ db.items) : ¬ (item.id = id ∧ item.orgId = orgId) := by
  simpa using List.find?_eq_none.mp h item hitem

/-- A patch reaches the thread exactly if its identifier is that of an item of it. -/
theorem untouched_patch_iff (hs : s.Sound) (evidenceId : JsText) (patch : EvidencePatch) :
    Untouched threadId s (handle lib t user s (.patchEvidence evidenceId patch)) ↔
      ¬ Reaches lib t user threadId s (.patchEvidence evidenceId patch) := by
  rw [handle]
  cases hselect : s.db.selectById evidenceId user.orgId with
  | none =>
    refine iff_of_true ?_ ?_
    · rw [updateEvidence, hselect]
      exact ⟨rfl, fun _ hitem => absurd hitem List.not_mem_nil⟩
    · rintro ⟨item, hitem, hid⟩
      exact selectById_eq_none hselect (mem_itemsOf.mp hitem).1 hid
  | some current =>
    obtain ⟨hcurrent, hid, horg⟩ := selectById_eq_some hselect
    obtain ⟨-, ⟨f, hitems⟩, item, hresult, hthread⟩ :=
      @updateEvidence_some N lib t s.db ⟨evidenceId, user, patch⟩ current hselect
    by_cases hcase : current.threadId = threadId
    · -- the item is in the answer
      have hreaches : Reaches lib t user threadId s (.patchEvidence evidenceId patch) :=
        ⟨current, mem_itemsOf.mpr ⟨hcurrent, hcase⟩, hid, horg⟩
      refine iff_of_false (fun h => ?_) fun hnot => hnot hreaches
      refine h.answer item ?_ (hthread.trans hcase)
      show item ∈ Option.toList (updateEvidence lib t ⟨evidenceId, user, patch⟩ s.db).2
      rw [hresult]
      exact List.mem_cons_self
    · have hothers : ∀ other ∈ itemsOf threadId s.db, other.id ≠ current.id := by
        intro other hother hsame
        obtain ⟨hmem, hotherThread⟩ := mem_itemsOf.mp hother
        obtain rfl := List.inj_on_of_nodup_map hs.ids hmem hcurrent hsame
        exact hcase hotherThread
      refine iff_of_true ⟨?_, fun other hother hotherThread => ?_⟩ ?_
      · exact (congrArg (List.filter _) hitems).trans (itemsOf_updateItem hothers)
      · have hother : other ∈ Option.toList (updateEvidence lib t ⟨evidenceId, user, patch⟩ s.db).2 := hother
        rw [hresult] at hother
        rw [List.mem_singleton.mp hother] at hotherThread
        exact hcase (hthread.symm.trans hotherThread)
      · rintro ⟨other, hother, hotherId, -⟩
        exact hothers other hother (hotherId.trans hid.symm)

/-- A tool with the context of another thread. -/
theorem untouched_callTool_of_ne {context : EvidenceCaptureContext} (hne : context.threadId ≠ thread.id)
    (tool : McpTool N) : Untouched thread.id s (callTool lib t user context s tool) := by
  cases tool with
  | capture tool data =>
    cases data with
    | none => exact ⟨rfl, fun _ hitem => absurd hitem List.not_mem_nil⟩
    | some data => exact ⟨itemsOf_recordEvidence hne, fun _ hitem => absurd hitem List.not_mem_nil⟩
  | listEvidence includeInactive =>
    exact untouched_read hne (fun _ hitem => threadId_of_mem (List.mem_filter.mp hitem).1) rfl
  | getEvidenceChain => exact untouched_read hne (fun _ => threadId_of_mem) rfl
  | searchMemory =>
    exact untouched_read hne (fun _ hitem => threadId_of_mem (List.mem_filter.mp hitem).1) rfl
  | remember evidenceIds => exact untouched_read hne (fun _ => threadId_of_mem_memorySources) rfl
  | other => exact ⟨rfl, fun _ hitem => absurd hitem List.not_mem_nil⟩

omit [JsNumber N] in
/-- An answer made of items of a thread leaves the thread alone if it is empty. -/
theorem untouched_iff_forall_notMem {l : List (EvidenceItem N)}
    (hl : ∀ item ∈ l, item.threadId = threadId) :
    Untouched threadId s (s, l) ↔ ∀ item, item ∉ l :=
  ⟨fun h item hitem => h.answer item hitem (hl item hitem),
    fun h => ⟨rfl, fun item hitem => absurd hitem (h item)⟩⟩

/-- A capture leaves the thread alone if the index has its row. -/
theorem untouched_capture_iff {input : RecordInput N} (hthread : input.context.threadId = threadId)
    (haccepts : s.db.accepts input = true) :
    Untouched threadId s (s.withDb (recordEvidence lib t input s.db).1, []) ↔
      ¬ s.db.conflicts (input.row lib.toTexts t) = false := by
  have hitems : (recordEvidence lib t input s.db).1.items =
      (s.db.insertOrIgnore (input.row lib.toTexts t)).items := by
    rw [(recordEvidence_fst input).2, if_pos haccepts]
  have hsame : itemsOf threadId (recordEvidence lib t input s.db).1 =
      itemsOf threadId (s.db.insertOrIgnore (input.row lib.toTexts t)) := congrArg (List.filter _) hitems
  rw [EvidenceDb.insertOrIgnore] at hsame
  cases hconflicts : s.db.conflicts (input.row lib.toTexts t) with
  | true =>
    rw [if_pos hconflicts] at hsame
    exact iff_of_true ⟨hsame, fun _ hitem => absurd hitem List.not_mem_nil⟩ Bool.noConfusion
  | false =>
    refine iff_of_false (fun h => ?_) (not_not.mpr rfl)
    rw [if_neg (by rw [hconflicts]; exact Bool.false_ne_true)] at hsame
    -- the row is added
    have hlength : (itemsOf threadId s.db ++ [input.row lib.toTexts t]).length =
        (itemsOf threadId s.db).length := by
      calc (itemsOf threadId s.db ++ [input.row lib.toTexts t]).length
          = (itemsOf threadId { s.db with items := s.db.items ++ [input.row lib.toTexts t] }).length := by
            unfold itemsOf
            rw [List.filter_append, List.filter_singleton,
              decide_eq_true (show (input.row lib.toTexts t).threadId = threadId from hthread)]
            rfl
        _ = (itemsOf threadId s.db).length := congrArg List.length (hsame.symm.trans h.items)
    rw [List.length_append, List.length_singleton] at hlength
    omega

theorem untouched_callTool_iff (context : EvidenceCaptureContext) (hthreadId : context.threadId ≠ [])
    (hthread : thread ∈ s.db.threads) (hid : thread.id = context.threadId) (horg : thread.orgId = user.orgId)
    (tool : McpTool N) :
    Untouched context.threadId s (callTool lib t user context s tool) ↔
      ¬ ToolReaches lib t user context s tool := by
  have hread : ∀ p : EvidenceItem N → Bool,
      Untouched context.threadId s (s, (listEvidence lib s.db context.threadId user.orgId).filter p) ↔
        ¬ ∃ item ∈ itemsOf context.threadId s.db, item.orgId = user.orgId ∧ p item := by
    intro p
    rw [untouched_iff_forall_notMem fun _ hitem => threadId_of_mem (List.mem_filter.mp hitem).1, not_exists]
    refine forall_congr' fun item => not_congr ?_
    rw [List.mem_filter, mem_listEvidence, mem_itemsOf]
    constructor
    · rintro ⟨⟨hitem, hitemThread, hitemOrg⟩, hp⟩
      exact ⟨⟨hitem, hitemThread⟩, hitemOrg, hp⟩
    · rintro ⟨⟨hitem, hitemThread⟩, hitemOrg, hp⟩
      exact ⟨⟨hitem, hitemThread, hitemOrg⟩, hp⟩
  cases tool with
  | capture tool data =>
    cases data with
    | none =>
      refine iff_of_true ⟨rfl, fun _ hitem => absurd hitem List.not_mem_nil⟩ ?_
      rintro ⟨content, hcontent, -⟩
      cases hcontent
    | some data =>
      have haccepts : s.db.accepts (tool.input user context data) = true :=
        decide_eq_true ⟨hthreadId, List.any_eq_true.mpr ⟨thread, hthread, decide_eq_true ⟨hid, horg⟩⟩⟩
      refine (untouched_capture_iff rfl haccepts).trans (not_congr ⟨fun hnew => ⟨data, rfl, hnew⟩, ?_⟩)
      rintro ⟨content, hcontent, hnew⟩
      obtain rfl := Option.some.inj hcontent
      exact hnew
  | listEvidence includeInactive => exact hread _
  | getEvidenceChain =>
    have hall := hread fun _ => true
    rw [List.filter_true] at hall
    refine hall.trans (not_congr (exists_congr fun item => and_congr_right fun _ => ?_))
    exact and_iff_left rfl
  | searchMemory => exact hread isUsable
  | remember evidenceIds =>
    refine (untouched_iff_forall_notMem fun _ => threadId_of_mem_memorySources).trans ?_
    exact List.eq_nil_iff_forall_not_mem.symm.trans not_not.symm
  | other => exact iff_of_true ⟨rfl, fun _ hitem => absurd hitem List.not_mem_nil⟩ not_false

/-- A call of a tool. -/
theorem untouched_mcp_iff (hthread : thread ∈ s.db.threads) (horg : thread.orgId = user.orgId)
    (threadId traceId query : JsText) (tool : McpTool N) :
    Untouched thread.id s (handle lib t user s (.mcp threadId traceId query tool)) ↔
      ¬ Reaches lib t user thread.id s (.mcp threadId traceId query tool) := by
  rw [handle]
  split
  · rename_i hnone
    refine iff_of_true ⟨rfl, fun _ hitem => absurd hitem List.not_mem_nil⟩ ?_
    rintro ⟨rfl, ⟨hthreadId, htraceId⟩, -⟩
    exact hnone.elim hthreadId htraceId
  · rename_i hcontext
    obtain ⟨hthreadId, htraceId⟩ := not_or.mp hcontext
    by_cases hcase : threadId = thread.id
    · subst hcase
      show _ ↔ ¬ (thread.id = thread.id ∧ (thread.id ≠ [] ∧ traceId ≠ []) ∧ _)
      rw [and_iff_right rfl, and_iff_right ⟨hthreadId, htraceId⟩]
      exact untouched_callTool_iff ⟨thread.id, traceId, query⟩ hthreadId hthread rfl horg tool
    · exact iff_of_true (untouched_callTool_of_ne hcase tool) fun h => hcase h.1

/-- **A request leaves the evidence of another user's thread alone** exactly if it does not reach it. -/
theorem untouched_handle_iff (hs : s.Sound) (hthread : thread ∈ s.db.threads)
    (horg : thread.orgId = user.orgId) (hother : thread.userId ≠ user.id) (request : HttpRequest N) :
    Untouched thread.id s (handle lib t user s request) ↔ ¬ Reaches lib t user thread.id s request := by
  cases request with
  | patchEvidence evidenceId patch => exact untouched_patch_iff hs evidenceId patch
  | mcp threadId traceId query tool => exact untouched_mcp_iff hthread horg threadId traceId query tool
  | createThread id =>
    refine iff_of_true ⟨?_, fun _ hitem => absurd hitem List.not_mem_nil⟩ not_false
    show itemsOf thread.id (createThread user id s).db = _
    rw [createThread]
    split
    · rfl
    · rfl
  | deleteThread threadId =>
    refine iff_of_true (untouched_ifOwner hs hthread hother fun hne => ⟨?_, fun _ hitem =>
      absurd hitem List.not_mem_nil⟩) not_false
    show (s.db.items.filter _).filter _ = s.db.items.filter _
    rw [List.filter_filter]
    refine List.filter_congr fun item _ => ?_
    by_cases hitem : item.threadId = thread.id
    · rw [decide_eq_true hitem, Bool.true_and]
      exact decide_eq_true fun h => hne (h.symm.trans hitem)
    · rw [decide_eq_false hitem, Bool.false_and]
  | listEvidence threadId history =>
    exact iff_of_true (untouched_ifOwner hs hthread hother fun hne =>
      untouched_listThreadEvidence hs hne history) not_false
  | reviseEvidence threadId evidenceIds instruction =>
    exact iff_of_true (untouched_ifOwner hs hthread hother fun hne =>
      untouched_reviseEvidence hne evidenceIds instruction) not_false
  | chat threadId captures =>
    exact iff_of_true (untouched_ifOwner hs hthread hother fun hne =>
      untouched_read hne (fun _ => threadId_of_mem) ((recordAll_spec captures hs.ids).2.2 hne)) not_false
  | streamWorkflow threadId runId captures =>
    exact iff_of_true (untouched_ifOwner hs hthread hother fun hne =>
      untouched_read hne (fun _ => threadId_of_mem) ((recordAll_spec captures hs.ids).2.2 hne)) not_false
  | resumeWorkflow runId captures =>
    refine iff_of_true ?_ not_false
    rw [handle]
    split
    · exact ⟨rfl, fun _ hitem => absurd hitem List.not_mem_nil⟩
    · rename_i run hfound
      have hrun := List.find?_some hfound
      have hne : run.threadId ≠ thread.id :=
        ne_of_run hs hthread hother (List.mem_of_find?_eq_some hfound) (by simpa using And.right (by simpa using hrun))
      exact untouched_read hne (fun _ => threadId_of_mem) ((recordAll_spec captures hs.ids).2.2 hne)
  | createMemory threadId evidenceIds =>
    refine iff_of_true ?_ not_false
    rw [handle]
    split
    · exact ⟨rfl, fun _ hitem => absurd hitem List.not_mem_nil⟩
    · exact untouched_ifOwner hs hthread hother fun hne =>
        untouched_read hne (fun _ => threadId_of_mem_memorySources) rfl
  | searchMemories threadId =>
    refine iff_of_true ?_ not_false
    rw [handle]
    split
    · exact ⟨rfl, fun _ hitem => absurd hitem List.not_mem_nil⟩
    · exact untouched_ifOwner hs hthread hother fun hne =>
        untouched_read hne (fun _ hitem => threadId_of_mem (List.mem_filter.mp hitem).1) rfl
  | threadMemories threadId =>
    exact iff_of_true (untouched_ifOwner hs hthread hother fun hne =>
      untouched_read hne (fun _ hitem => threadId_of_mem (List.mem_filter.mp hitem).1) rfl) not_false

/-! ### What the handlers keep -/

/-- The invariant is kept, and the threads of other users. -/
structure Kept (user : AuthenticatedUser) (s s' : ServerState N) : Prop where
  sound : s'.Sound
  threads : ∀ thread ∈ s.db.threads, thread.userId ≠ user.id → thread ∈ s'.db.threads

omit [JsNumber N] in
theorem Kept.refl (hs : s.Sound) : Kept user s s := ⟨hs, fun _ hthread _ => hthread⟩

omit [JsNumber N] in
theorem kept_ifOwner (hs : s.Sound) {answer : Answer N}
    (h : s.db.ownsThread threadId user.id user.orgId → Kept user s answer.1) :
    Kept user s (ifOwner user threadId s answer).1 := by
  rw [ifOwner]
  split
  · rename_i hown
    exact h hown
  · exact .refl hs

omit [JsNumber N] in
/-- The threads and the runs stay. -/
theorem Kept.of_threads (hs : s.Sound) (hthreads : db.threads = s.db.threads)
    (hids : (db.items.map EvidenceItem.id).Nodup) : Kept user s (s.withDb db) := by
  refine ⟨⟨?_, hids, ?_⟩, ?_⟩
  · show (db.threads.map _).Nodup
    rw [hthreads]
    exact hs.threads
  · show ∀ run ∈ s.runs, ∃ thread ∈ db.threads, _
    rw [hthreads]
    exact hs.runs
  · show ∀ thread ∈ s.db.threads, _ → thread ∈ db.threads
    rw [hthreads]
    exact fun _ hthread _ => hthread

theorem kept_recordAll (hs : s.Sound) (captures : List (Capture N)) :
    Kept user s (s.withDb (recordAll lib user threadId captures s.db)) := by
  obtain ⟨hthreads, hids, -⟩ := @recordAll_spec N _ lib user [] s.db threadId captures hs.ids
  exact .of_threads hs hthreads hids

omit [JsNumber N] in
theorem kept_createThread (hs : s.Sound) (id : JsText) : Kept user s (createThread user id s) := by
  rw [createThread]
  split
  · exact .refl hs
  · rename_i hnew
    refine ⟨⟨?_, hs.ids, fun run hrun => ?_⟩, fun thread hthread _ => List.mem_append_left _ hthread⟩
    · show ((s.db.threads ++ [_]).map AgentThread.id).Nodup
      rw [List.map_append]
      refine List.nodup_append.mpr ⟨hs.threads, List.nodup_singleton _, ?_⟩
      rintro old hold new hnewId rfl
      obtain ⟨thread, hthread, rfl⟩ := List.mem_map.mp hold
      exact hnew (List.any_eq_true.mpr ⟨thread, hthread, decide_eq_true (List.mem_singleton.mp hnewId)⟩)
    · obtain ⟨thread, hthread, hrunThread⟩ := hs.runs run hrun
      exact ⟨thread, List.mem_append_left _ hthread, hrunThread⟩

omit [JsNumber N] in
theorem kept_deleteThread (hs : s.Sound) (hown : s.db.ownsThread threadId user.id user.orgId = true) :
    Kept user s (deleteThread threadId s) := by
  refine ⟨⟨?_, ?_, fun run hrun => ?_⟩, fun thread hthread hother => ?_⟩
  · exact hs.threads.sublist (List.filter_sublist.map _)
  · exact hs.ids.sublist (List.filter_sublist.map _)
  · obtain ⟨hrun, hne⟩ := List.mem_filter.mp hrun
    obtain ⟨thread, hthread, hid, huser⟩ := hs.runs run hrun
    refine ⟨thread, List.mem_filter.mpr ⟨hthread, ?_⟩, hid, huser⟩
    rw [hid]
    exact hne
  · have hne : threadId ≠ thread.id := ne_of_ownsThread hs hthread hother hown
    exact List.mem_filter.mpr ⟨hthread, decide_eq_true hne.symm⟩

/-- A run is started for the owner of its thread. -/
theorem kept_streamWorkflow (hs : s.Sound) (hown : s.db.ownsThread threadId user.id user.orgId = true)
    (runId : JsText) (captures : List (Capture N)) :
    Kept user s ⟨recordAll lib user threadId captures s.db, s.runs ++ [⟨runId, threadId, user.id⟩]⟩ := by
  obtain ⟨hrecorded, hthreads⟩ : Kept user s (s.withDb (recordAll lib user threadId captures s.db)) :=
    kept_recordAll hs captures
  refine ⟨⟨hrecorded.threads, hrecorded.ids, fun run hrun => ?_⟩, hthreads⟩
  rcases List.mem_append.mp hrun with hrun | hrun
  · exact hrecorded.runs run hrun
  · rw [List.mem_singleton.mp hrun]
    obtain ⟨thread, hthread, hown⟩ := List.any_eq_true.mp hown
    obtain ⟨hid, huser, -⟩ := of_decide_eq_true hown
    refine ⟨thread, ?_, hid, huser⟩
    show thread ∈ (recordAll lib user threadId captures s.db).threads
    rwa [(@recordAll_spec N _ lib user [] s.db threadId captures hs.ids).1]

omit [JsNumber N] in
theorem kept_reviseEvidence (hs : s.Sound) (evidenceIds : List JsText) (instruction : JsText) :
    Kept user s (reviseEvidence lib t user threadId evidenceIds instruction s).1 := by
  rw [reviseEvidence]
  dsimp only
  split
  · exact .refl hs
  · obtain ⟨hitems, hthreads⟩ := @foldl_addUse N _ user.id instruction t.now _
    refine .of_threads hs hthreads ?_
    rw [hitems]
    exact hs.ids

omit [JsNumber N] in
theorem kept_updateEvidence (hs : s.Sound) (evidenceId : JsText) (patch : EvidencePatch) :
    Kept user s (s.withDb (updateEvidence lib t ⟨evidenceId, user, patch⟩ s.db).1) := by
  cases hselect : s.db.selectById evidenceId user.orgId with
  | none =>
    rw [updateEvidence, hselect]
    exact .refl hs
  | some current =>
    obtain ⟨hthreads, ⟨f, hitems⟩, -⟩ :=
      @updateEvidence_some N lib t s.db ⟨evidenceId, user, patch⟩ current hselect
    refine .of_threads hs hthreads ?_
    rw [hitems, map_updateItem EvidenceItem.id current.id f fun _ _ => rfl]
    exact hs.ids

/-- One request. -/
theorem kept_handle (hs : s.Sound) (request : HttpRequest N) :
    Kept user s (handle lib t user s request).1 := by
  cases request with
  | createThread id => exact kept_createThread hs id
  | deleteThread threadId => exact kept_ifOwner hs fun hown => kept_deleteThread hs hown
  | listEvidence threadId history =>
    refine kept_ifOwner hs fun _ => ?_
    rw [listThreadEvidence]
    split
    · exact kept_recordAll hs history
    · exact .refl hs
  | patchEvidence evidenceId patch => exact kept_updateEvidence hs evidenceId patch
  | reviseEvidence threadId evidenceIds instruction =>
    exact kept_ifOwner hs fun _ => kept_reviseEvidence hs evidenceIds instruction
  | chat threadId captures => exact kept_ifOwner hs fun _ => kept_recordAll hs captures
  | streamWorkflow threadId runId captures =>
    exact kept_ifOwner hs fun hown => kept_streamWorkflow hs hown runId captures
  | resumeWorkflow runId captures =>
    rw [handle]
    split
    · exact .refl hs
    · exact kept_recordAll hs captures
  | createMemory threadId evidenceIds =>
    rw [handle]
    split
    · exact .refl hs
    · exact kept_ifOwner hs fun _ => .refl hs
  | searchMemories threadId =>
    rw [handle]
    split
    · exact .refl hs
    · exact kept_ifOwner hs fun _ => .refl hs
  | threadMemories threadId => exact kept_ifOwner hs fun _ => .refl hs
  | mcp threadId traceId query tool =>
    rw [handle]
    split
    · exact .refl hs
    · cases tool with
      | capture tool data =>
        cases data with
        | none => exact .refl hs
        | some data =>
          -- the context is that of the headers
          exact kept_recordAll hs [⟨tool.input user ⟨threadId, traceId, query⟩ data, t⟩]
      | listEvidence includeInactive => exact .refl hs
      | getEvidenceChain => exact .refl hs
      | searchMemory => exact .refl hs
      | remember evidenceIds => exact .refl hs
      | other => exact .refl hs

/-! ### Runs -/

/-- A request with what it draws, and its answer. -/
structure Exchange (N : Type) where
  turn : Turn
  request : HttpRequest N
  answer : List (EvidenceItem N)

/-- The server answers a request of the user. -/
def HttpStep (lib : EvidenceLibrary N) (user : AuthenticatedUser) (s : ServerState N) (a : Exchange N)
    (s' : ServerState N) : Prop :=
  handle lib a.turn user s a.request = (s', a.answer)

/-- No item of the thread has been added or changed, and none has been part of an answer. -/
structure Isolated (threadId : JsText) (s u : ServerState N) (as : List (Exchange N)) : Prop where
  items : itemsOf threadId u.db = itemsOf threadId s.db
  answers : ∀ a ∈ as, ∀ item ∈ a.answer, item.threadId ≠ threadId

theorem kept_of_run {u : ServerState N} {as : List (Exchange N)} (hs : s.Sound)
    (h : Run (HttpStep lib user) s as u) : Kept user s u := by
  refine h.invariant (.refl hs) fun v a w hv hstep => ?_
  obtain rfl : (handle lib a.turn user v a.request).1 = w := congrArg Prod.fst hstep
  have hw : Kept user v (handle lib a.turn user v a.request).1 := kept_handle hv.sound a.request
  exact ⟨hw.sound, fun thread hthread hother => hw.threads thread (hv.threads thread hthread hother) hother⟩

theorem isolated_of_run {u : ServerState N} {as : List (Exchange N)} (hs : s.Sound)
    (hthread : thread ∈ s.db.threads) (horg : thread.orgId = user.orgId) (hother : thread.userId ≠ user.id)
    (h : Run (Guarded (HttpStep lib user) fun v a => ¬ Reaches lib a.turn user thread.id v a.request)
      s as u) : Isolated thread.id s u as := by
  induction h with
  | nil => exact ⟨rfl, fun _ ha => absurd ha List.not_mem_nil⟩
  | @snoc bs v w a hrun hstep ih =>
    obtain ⟨hstep, hreaches⟩ := hstep
    have hkept : Kept user s v := kept_of_run hs hrun.of_guarded
    have huntouched := (untouched_handle_iff hkept.sound (hkept.threads thread hthread hother) horg hother
      a.request).mpr hreaches
    rw [hstep] at huntouched
    refine ⟨huntouched.items.trans ih.items, fun b hb => ?_⟩
    rcases List.mem_append.mp hb with hb | hb
    · exact ih.answers b hb
    · rw [List.mem_singleton.mp hb]
      exact huntouched.answer

end Handlers

/-! ### A patch by somebody else -/

def threadEvidence : EvidenceItem Int := injectedInput.row asciiTexts ⟨JsText.of "x", [], 7⟩

/-- A thread of one user with an item of evidence. -/
def sharedServer : ServerState Int := ⟨⟨onlyThread, [threadEvidence], [], []⟩, []⟩

/-- Somebody else of the organization. -/
def colleague : AuthenticatedUser := ⟨JsText.of "v", keeper.orgId, .editor⟩

theorem sound_sharedServer : sharedServer.Sound where
  threads := List.nodup_singleton _
  ids := List.nodup_singleton _
  runs := fun _ hrun => absurd hrun List.not_mem_nil

/-- She asks for the list, -/
def listRequest : Exchange Int := ⟨⟨[], [], 8⟩, .listEvidence (JsText.of "thread") [], []⟩

/-- and patches what is not there. -/
def strayPatch : Exchange Int :=
  ⟨⟨[], [], 9⟩, .patchEvidence (JsText.of "y") ⟨some .rejected, none, none⟩, []⟩

end AgentService.Evidence
