import BoringPanel.AgentService.Memory.Upkeep
import BoringPanel.Lib.Runs

/-!
# Forgotten memories

A forgotten memory is erased, has no chunks, and none of the texts it has had occurs in another row kept
for it, in every run in which texts are not put into its log, and no other operation sets or touches a
forgotten memory (`erased_of_run`). The texts of memories must not occur in the fixed words of the log.
-/

namespace AgentService

variable {N : Type}

/-- The details and rationales of the program. -/
def fixedDetails : List String :=
  ["创建记忆。", "相同内容再次出现，已强化现有记忆。", "记忆已超过保留期限。", "活性低于 20，自动移出在线检索。",
    "与更高置信度记忆冲突，等待人工复核。", "两项记忆包含近似相同的可复用经验。", "两项记忆对同一状态给出相反描述，需要重新验证。",
    "同一服务的独立记忆包含相互支持的状态或处置经验。", "两项记忆归属于同一运行服务。", "维护任务检测到同一主题的相反状态描述。"]

/-- The fixed texts of logs and relations; the detail of a record may be empty. -/
def fixedTexts : List JsText := [] :: forgottenDetail :: fixedDetails.map JsText.of

theorem of_mem_fixedTexts {detail : String} (h : detail ∈ fixedDetails) : JsText.of detail ∈ fixedTexts :=
  List.mem_cons_of_mem _ (List.mem_cons_of_mem _ (List.mem_map_of_mem h))

/-- A record whose detail is not one of the program's own words: a note, or the memory it was merged
into. -/
def MemoryAction.holdsText (action : MemoryAction) : Bool :=
  action.detail ≠ [] ∧ action.action ∉ ["created", "auto_suspended", "reinforced", "expired",
    "auto_archived", "conflict_suspended", "forgotten"]

/-- The log of a memory has no text of others. -/
def Store.Quiet (st : Store N) (id : JsText) : Prop := ∀ a ∈ st.actionsOf id, a.holdsText = false

def MemorySource.texts (source : MemorySource) : List JsText :=
  [source.sourceId, source.traceId, source.relation]

/-- The texts that the log of a memory and its sources have. -/
def Store.loggedTexts (st : Store N) (id : JsText) : List JsText :=
  (st.actionsOf id).map MemoryAction.detail ++ (st.sourcesOf id).flatMap MemorySource.texts

/-- The texts of all other rows kept for a memory. -/
def Store.keptTexts (st : Store N) (id : JsText) : List JsText :=
  st.loggedTexts id ++ (st.relations.filter fun relation =>
    relation.fromMemoryId = id ∨ relation.toMemoryId = id).map MemoryRelation.rationale

/-- What is left of a forgotten memory. -/
structure MemoryItem.Erased (item : MemoryItem N) : Prop where
  title : item.title = forgottenTitle
  summary : item.summary = []
  content : item.content = .null
  note : item.note = []
  tags : item.tags = []
  keywords : item.keywords = []
  serviceName : item.serviceName = []
  vitality : item.vitality = 0
  pinned : item.pinned = false

variable [JsNumber N]

/-- The text of a content. -/
def contentTexts : JsValue N → List JsText
  | .null => []
  | content => [content.stringify]

/-- The title, the summary, the content and the note; the placeholder is no text of a memory. -/
def MemoryItem.texts (item : MemoryItem N) : List JsText :=
  ((if item.title = forgottenTitle then [] else [item.title]) ++ [item.summary, item.note] ++
    contentTexts item.content).filter fun text => text ≠ []

def Store.textsOf (st : Store N) (id : JsText) : List JsText :=
  match st.row? id with
  | some item => item.texts
  | none => []

/-- A store, and the texts that the memories have had. -/
structure TextsStore (N : Type) where
  store : Store N
  texts : JsText → List JsText

def TextsStore.empty : TextsStore N := ⟨Store.empty, fun _ => []⟩

/-- Forgotten memories are forgotten. -/
structure TextsStore.Forgets (s : TextsStore N) : Prop where
  erased : ∀ item ∈ s.store.items, item.status = .forgotten → item.Erased
  unchunked : ∀ item ∈ s.store.items, item.status = .forgotten →
    ∀ chunk ∈ s.store.chunks, chunk.memoryId ≠ item.id
  kept : ∀ item ∈ s.store.items, item.status = .forgotten →
    ∀ text ∈ s.texts item.id, ∀ kept ∈ s.store.keptTexts item.id, ¬ text <:+: kept

section Calls

variable (lib : MemoryLibrary N)

/-- What a call leads to. -/
def recordTexts (s : TextsStore N) (a : MemoryCall N × Int) : TextsStore N :=
  let store := perform lib a.2 s.store a.1
  ⟨store, fun id => s.texts id ++ store.textsOf id⟩

/-- A call, with the texts of the memories after it. -/
def TextsStep (s : TextsStore N) (a : MemoryCall N × Int) (s' : TextsStore N) : Prop :=
  s' = recordTexts lib s a

/-- The texts that the sources of a creation bring. -/
def sourceTexts (now : Int) (id : JsText) (sources : List MemorySourceInput) : List JsText :=
  sources.flatMap fun source => (source.row now id).texts

/-- A memory that a user may change. -/
def mayChange (user : AuthenticatedUser) (current : MemoryItem N) : Bool :=
  current.scope ≠ .organization ∨ user.role = .admin

/-- The condition on a call: it puts no text of a memory into other rows, sets the status to forgotten
only by forgetting, and leaves a forgotten memory as it is. -/
def Careful (s : TextsStore N) (a : MemoryCall N × Int) : Prop :=
  match a.1 with
  | .create user id input => input.scopeError user = none →
    match input.existing lib user s.store with
    | some item => ∀ text ∈ s.texts item.id, ∀ kept ∈ sourceTexts a.2 item.id input.sources,
      ¬ text <:+: kept
    | none => input.status ≠ some .forgotten ∧
      ∀ text ∈ (input.row lib a.2 user id).texts,
        ∀ kept ∈ input.createdDetail lib :: fixedTexts ++ sourceTexts a.2 id input.sources,
          ¬ text <:+: kept
  | .update user id input =>
    ∀ current ∈ (getMemory lib a.2 id user .none s.store).2, mayChange user current →
      input.nextStatus current = .forgotten →
        current.status = .forgotten ∧ input.nextPinned current = false ∧ input.note.getD [] = []
  | .forget user id =>
    ∀ current ∈ (getMemory lib a.2 id user .none s.store).2, mayChange user current →
      s.store.Quiet current.id
  | .retrieve user context includeInactive ranking =>
    ∀ memory ∈ ranking.results (listedMemories lib user (.all context includeInactive 800) s.store),
      memory.status ≠ .forgotten
  | _ => True

end Calls

/-! ### Stores that are discreet -/

/-- The note has been redacted. -/
def NoteRedacted (item : MemoryItem N) : Prop := (redactString item.note).take 4000 = item.note

/-- What the operations keep, for some texts that the memories have had. -/
structure Discreet (texts : JsText → List JsText) (st : Store N) : Prop where
  unique : st.UniqueIds
  absent : ∀ id, (∀ item ∈ st.items, item.id ≠ id) → texts id = [] ∧ st.loggedTexts id = []
  erased : ∀ item ∈ st.items, item.status = .forgotten → item.Erased
  unchunked : ∀ item ∈ st.items, item.status = .forgotten → ∀ chunk ∈ st.chunks, chunk.memoryId ≠ item.id
  quiet : ∀ item ∈ st.items, item.status = .forgotten → st.Quiet item.id
  rationale : ∀ relation ∈ st.relations, relation.rationale ∈ fixedTexts
  recorded : ∀ item ∈ st.items, st.Quiet item.id →
    NoteRedacted item ∧ ∀ text ∈ item.texts, text ∈ texts item.id
  clear : ∀ id, st.Quiet id → ∀ text ∈ texts id, ∀ kept ∈ fixedTexts ++ st.loggedTexts id,
    ¬ text <:+: kept

section Discreet

variable {st st' : Store N} {texts : JsText → List JsText} {id id' : JsText}
  {f : MemoryItem N → MemoryItem N} {now : Int} {user : AuthenticatedUser} {item item' : MemoryItem N}

omit [JsNumber N] in
theorem mem_updateItem : item ∈ (st.updateItem id f).items ↔
    ∃ row ∈ st.items, (if row.id = id then f row else row) = item :=
  List.mem_map

omit [JsNumber N] in
theorem loggedTexts_of_untouched (h : Untouched id st st') : st'.loggedTexts id = st.loggedTexts id := by
  rw [Store.loggedTexts, h.actions, h.sources, Store.loggedTexts]

/-- The texts of the memories are recorded after a call. -/
theorem Discreet.record (h : Discreet texts st) :
    Discreet (fun id => texts id ++ st.textsOf id) st := by
  refine ⟨h.unique, fun id hid => ?_, h.erased, h.unchunked, h.quiet, h.rationale,
    fun item hitem hquiet => ?_, fun id hquiet text htext => ?_⟩
  · obtain ⟨htexts, hlogged⟩ := h.absent id hid
    refine ⟨?_, hlogged⟩
    show texts id ++ st.textsOf id = []
    rw [htexts, Store.textsOf, row?_eq_none_iff.mpr hid]
    rfl
  · obtain ⟨hnote, htexts⟩ := h.recorded item hitem hquiet
    exact ⟨hnote, fun text htext => List.mem_append_left _ (htexts text htext)⟩
  · rcases List.mem_append.mp htext with htext | htext
    · exact h.clear id hquiet text htext
    · rw [Store.textsOf] at htext
      cases hrow : st.row? id with
      | none =>
        rw [hrow] at htext
        cases htext
      | some item =>
        rw [hrow] at htext
        have hid := row?_id hrow
        have hrecorded := (h.recorded item (mem_of_row? hrow) (hid ▸ hquiet)).2 text htext
        exact h.clear id hquiet text (hid ▸ hrecorded)

theorem Discreet.forgets (h : Discreet texts st) :
    TextsStore.Forgets ⟨st, texts⟩ := by
  refine ⟨h.erased, h.unchunked, fun item hitem hstatus text htext kept hkept => ?_⟩
  have hclear := h.clear item.id (h.quiet item hitem hstatus) text htext
  rcases List.mem_append.mp hkept with hkept | hkept
  · exact hclear kept (List.mem_append_right _ hkept)
  · obtain ⟨relation, hrelation, rfl⟩ := List.mem_map.mp hkept
    exact hclear _ (List.mem_append_left _ (h.rationale relation (List.mem_filter.mp hrelation).1))

/-! ### Relations and chunks -/

/-- Only relations and chunks have changed; a chunk that has come is that of a memory which is not
forgotten. -/
theorem Discreet.with_rest (h : Discreet texts st) (hitems : st'.items = st.items)
    (hsources : st'.sources = st.sources) (hactions : st'.actions = st.actions)
    (hrelations : ∀ relation ∈ st'.relations, relation.rationale ∈ fixedTexts)
    (hchunks : ∀ chunk ∈ st'.chunks, (∃ chunk' ∈ st.chunks, chunk'.memoryId = chunk.memoryId) ∨
      ∃ item ∈ st.items, item.status ≠ .forgotten ∧ chunk.memoryId = item.id) :
    Discreet texts st' := by
  have hsame : ∀ id, Untouched id st st' := .of_eq hitems hsources hactions
  have hlogged : ∀ id, st'.loggedTexts id = st.loggedTexts id := fun id =>
    loggedTexts_of_untouched (hsame id)
  have hquiet : ∀ id, st'.Quiet id ↔ st.Quiet id := fun id => by
    rw [Store.Quiet, (hsame id).actions, Store.Quiet]
  refine ⟨?_, fun id hid => ?_, ?_, ?_, ?_, hrelations, ?_, fun id hq => ?_⟩
  · rw [Store.UniqueIds, hitems]
    exact h.unique
  · rw [hlogged]
    exact h.absent id (hitems ▸ hid)
  · rw [hitems]
    exact h.erased
  · rw [hitems]
    intro item hitem hstatus chunk hchunk heq
    rcases hchunks chunk hchunk with ⟨chunk', hchunk', hid⟩ | ⟨other, hother, hne, hid⟩
    · exact h.unchunked item hitem hstatus chunk' hchunk' (hid.trans heq)
    · have : other = item := List.inj_on_of_nodup_map h.unique hother hitem (hid.symm.trans heq)
      exact hne (this ▸ hstatus)
  · rw [hitems]
    exact fun item hitem hstatus => (hquiet item.id).mpr (h.quiet item hitem hstatus)
  · rw [hitems]
    exact fun item hitem hq => h.recorded item hitem ((hquiet item.id).mp hq)
  · rw [hlogged]
    exact h.clear id ((hquiet id).mp hq)

theorem Discreet.updateChunks (h : Discreet texts st) (id : JsText) (confidence : Int) :
    Discreet texts (st.updateChunks now id confidence) := by
  refine h.with_rest rfl rfl rfl h.rationale fun chunk hchunk => .inl ?_
  obtain ⟨chunk', hchunk', rfl⟩ := List.mem_map.mp hchunk
  refine ⟨chunk', hchunk', ?_⟩
  split
  · rfl
  · rfl

/-- A relation for a reason of the program. -/
theorem Discreet.addMemoryRelation (h : Discreet texts st) {relation : MemoryRelation}
    (hrelation : relation.rationale ∈ fixedTexts) : Discreet texts (st.addMemoryRelation relation) := by
  refine h.with_rest addMemoryRelation_eq.1 addMemoryRelation_eq.2.1 addMemoryRelation_eq.2.2.1 ?_ ?_
  · rw [Store.addMemoryRelation]
    split
    · exact h.rationale
    · intro other hother
      rcases List.mem_append.mp hother with hother | hother
      · exact h.rationale other hother
      · rwa [List.mem_singleton.mp hother]
  · intro chunk hchunk
    rw [addMemoryRelation_eq.2.2.2] at hchunk
    exact .inl ⟨chunk, hchunk, rfl⟩

variable {lib : MemoryLibrary N}

theorem mem_fixedTexts_of_relationOf {other : MemoryItem N} {type : MemoryRelationType} {score : Int}
    {rationale : String} (h : relationOf lib item other = some (type, score, rationale)) :
    JsText.of rationale ∈ fixedTexts := by
  refine of_mem_fixedTexts ?_
  simp only [relationOf] at h
  split at h
  · simp_all [fixedDetails]
  · split at h
    · simp_all [fixedDetails]
    · split at h
      · simp_all [fixedDetails]
      · split at h
        · simp_all [fixedDetails]
        · cases h

theorem Discreet.createMemoryRelations (h : Discreet texts st) (item : MemoryItem N) :
    Discreet texts (createMemoryRelations lib now st item) := by
  rw [AgentService.createMemoryRelations]
  generalize List.take 300 _ = others
  induction others generalizing st with
  | nil => exact h
  | cons other others ih =>
    rw [List.foldl_cons]
    cases hrel : relationOf lib item other with
    | none => exact ih h
    | some relation =>
      obtain ⟨type, score, rationale⟩ := relation
      exact ih (h.addMemoryRelation (mem_fixedTexts_of_relationOf hrel))

/-- Memories of the store are read; those that are forgotten get no chunks. -/
theorem Discreet.hydrateMemories (h : Discreet texts st) {items : List (MemoryItem N)}
    (hmem : ∀ item ∈ items, item ∈ st.items) : Discreet texts (hydrateMemories lib now st items) := by
  rw [AgentService.hydrateMemories]
  have hmissing : ∀ item ∈ items.filter fun item => item.status ≠ .forgotten ∧
      item.id ∉ st.chunks.map MemoryChunk.memoryId, item ∈ st.items ∧ item.status ≠ .forgotten := by
    intro item hitem
    obtain ⟨hitem, hneeds⟩ := List.mem_filter.mp hitem
    rw [decide_eq_true_eq] at hneeds
    exact ⟨hmem item hitem, hneeds.1⟩
  clear hmem
  revert hmissing
  generalize items.filter _ = missing
  intro hmissing
  induction missing generalizing st with
  | nil => exact h
  | cons item missing ih =>
    obtain ⟨hitem, hstatus⟩ := hmissing item List.mem_cons_self
    have hone : Discreet texts (persistMemoryChunks lib now st item) := by
      refine h.with_rest rfl rfl rfl h.rationale fun chunk hchunk => ?_
      rcases List.mem_append.mp hchunk with hchunk | hchunk
      · exact .inl ⟨chunk, (List.mem_filter.mp hchunk).1, rfl⟩
      · exact .inr ⟨item, hitem, hstatus,
          (numbered_buildMemoryChunks item.chunkInput).memoryId chunk hchunk⟩
    exact ih hone fun other hother => hmissing other (List.mem_cons_of_mem _ hother)

theorem Discreet.getMemory (h : Discreet texts st) (id : JsText) (user : AuthenticatedUser)
    (context : MemoryContext) : Discreet texts (getMemory lib now id user context st).1 := by
  rcases getMemory_cases lib now id user context st with hget | ⟨item, hitem, -, -, -, hget⟩
  · rw [hget]
    exact h
  · rw [hget]
    exact h.hydrateMemories fun other hother => (List.mem_singleton.mp hother) ▸ hitem

/-! ### Rows -/

/-- An update of a row that adds no text and does not forget. -/
structure Gentle (row row' : MemoryItem N) : Prop where
  texts : NoteRedacted row → NoteRedacted row' ∧ ∀ text ∈ row'.texts, text ∈ row.texts
  status : row'.status = .forgotten → row.status = .forgotten ∧ (row.Erased → row'.Erased)

theorem Discreet.updateItem (h : Discreet texts st) (hf : ∀ row, (f row).id = row.id)
    (hgentle : ∀ row ∈ st.items, row.id = id → Gentle row (f row)) :
    Discreet texts (st.updateItem id f) := by
  -- each row is one of before, or the update of one
  have hrows : ∀ item ∈ (st.updateItem id f).items, ∃ row ∈ st.items, item.id = row.id ∧
      (item = row ∨ Gentle row item) := by
    intro item hitem
    obtain ⟨row, hrow, rfl⟩ := mem_updateItem.mp hitem
    refine ⟨row, hrow, ?_⟩
    by_cases hid : row.id = id
    · rw [if_pos hid]
      exact ⟨hf row, .inr (hgentle row hrow hid)⟩
    · rw [if_neg hid]
      exact ⟨rfl, .inl rfl⟩
  have hforgotten : ∀ item ∈ (st.updateItem id f).items, item.status = .forgotten →
      ∃ row ∈ st.items, item.id = row.id ∧ row.status = .forgotten ∧ item.Erased := by
    intro item hitem hstatus
    obtain ⟨row, hrow, hid, rfl | hg⟩ := hrows item hitem
    · exact ⟨item, hrow, rfl, hstatus, h.erased item hrow hstatus⟩
    · obtain ⟨hrowStatus, herased⟩ := hg.status hstatus
      exact ⟨row, hrow, hid, hrowStatus, herased (h.erased row hrow hrowStatus)⟩
  refine ⟨uniqueIds_updateItem hf h.unique, fun id' hid => h.absent id' fun row hrow heq => ?_,
    ?_, ?_, ?_, h.rationale, ?_, h.clear⟩
  · refine hid _ (mem_updateItem.mpr ⟨row, hrow, rfl⟩) ?_
    split
    · rw [hf, heq]
    · exact heq
  · intro item hitem hstatus
    obtain ⟨-, -, -, -, herased⟩ := hforgotten item hitem hstatus
    exact herased
  · intro item hitem hstatus
    obtain ⟨row, hrow, hid, hrowStatus, -⟩ := hforgotten item hitem hstatus
    rw [hid]
    exact h.unchunked row hrow hrowStatus
  · intro item hitem hstatus
    obtain ⟨row, hrow, hid, hrowStatus, -⟩ := hforgotten item hitem hstatus
    rw [hid]
    exact h.quiet row hrow hrowStatus
  · intro item hitem hquiet
    obtain ⟨row, hrow, hid, rfl | hg⟩ := hrows item hitem
    · exact h.recorded item hrow hquiet
    · rw [hid] at hquiet ⊢
      obtain ⟨hnote, htexts⟩ := h.recorded row hrow hquiet
      exact ⟨(hg.texts hnote).1, fun text htext => htexts text ((hg.texts hnote).2 text htext)⟩

/-- A memory of which nothing is in the log is forgotten. -/
theorem Discreet.forget (h : Discreet texts st) (hquiet : st.Quiet id) :
    Discreet texts ((st.updateItem id (MemoryItem.forget lib now)).deleteChunks id) := by
  have hrows : ∀ item ∈ (st.updateItem id (MemoryItem.forget lib now)).items,
      (item ∈ st.items ∧ item.id ≠ id) ∨
        (item.id = id ∧ item.Erased ∧ NoteRedacted item ∧ item.texts = []) := by
    intro item hitem
    obtain ⟨row, hrow, rfl⟩ := mem_updateItem.mp hitem
    by_cases hid : row.id = id
    · rw [if_pos hid]
      refine .inr ⟨hid, ⟨rfl, rfl, rfl, rfl, rfl, rfl, rfl, rfl, rfl⟩, by rfl, ?_⟩
      simp [MemoryItem.texts, MemoryItem.forget, contentTexts]
    · rw [if_neg hid]
      exact .inl ⟨hrow, hid⟩
  refine ⟨uniqueIds_updateItem (fun _ => rfl) h.unique, fun id' hid => h.absent id' fun row hrow heq => ?_,
    ?_, ?_, ?_, h.rationale, ?_, h.clear⟩
  · refine hid _ (mem_updateItem.mpr ⟨row, hrow, rfl⟩) ?_
    split
    · exact heq
    · exact heq
  · intro item hitem hstatus
    rcases hrows item hitem with ⟨hrow, -⟩ | ⟨-, herased, -⟩
    · exact h.erased item hrow hstatus
    · exact herased
  · intro item hitem hstatus chunk hchunk
    obtain ⟨hchunk, hne⟩ := List.mem_filter.mp hchunk
    rw [decide_eq_true_eq] at hne
    rcases hrows item hitem with ⟨hrow, -⟩ | ⟨hid, -⟩
    · exact h.unchunked item hrow hstatus chunk hchunk
    · exact hid ▸ hne
  · intro item hitem hstatus
    rcases hrows item hitem with ⟨hrow, -⟩ | ⟨hid, -⟩
    · exact h.quiet item hrow hstatus
    · exact hid ▸ hquiet
  · intro item hitem hq
    rcases hrows item hitem with ⟨hrow, -⟩ | ⟨-, -, hnote, htexts⟩
    · exact h.recorded item hrow hq
    · refine ⟨hnote, fun text htext => ?_⟩
      rw [htexts] at htext
      cases htext

/-- The texts of a row that is inserted last. -/
theorem textsOf_insert_self (hid : item'.id = id) (hnew : ∀ item ∈ st.items, item.id ≠ id) :
    ({ st with items := st.items ++ [item'] } : Store N).textsOf id = item'.texts := by
  subst hid
  rw [Store.textsOf, row?_insert_self item' (row?_eq_none_iff.mpr hnew)]

/-- A new memory, which is not forgotten. -/
theorem Discreet.insert (h : Discreet texts st) (item' : MemoryItem N) (hnew : ∀ item ∈ st.items, item.id ≠ item'.id)
    (hstatus : item'.status ≠ .forgotten) (hnote : NoteRedacted item')
    (hclear : ∀ text ∈ item'.texts, ∀ kept ∈ fixedTexts, ¬ text <:+: kept) :
    Discreet (fun id => texts id ++
      ({ st with items := st.items ++ [item'] } : Store N).textsOf id)
      { st with items := st.items ++ [item'] } := by
  have hrecord := h.record
  have hnone : st.row? item'.id = none := row?_eq_none_iff.mpr hnew
  have hmem : ∀ item ∈ st.items ++ [item'], item ∈ st.items ∨ item = item' := fun item hitem =>
    (List.mem_append.mp hitem).imp_right List.mem_singleton.mp
  have hself : ({ st with items := st.items ++ [item'] } : Store N).textsOf item'.id = item'.texts :=
    textsOf_insert_self rfl hnew
  have hother : ∀ id, id ≠ item'.id →
      ({ st with items := st.items ++ [item'] } : Store N).textsOf id = st.textsOf id := by
    intro id hid
    rw [Store.textsOf, row?_insert item' hid, Store.textsOf]
  refine ⟨uniqueIds_insert item' h.unique hnone, fun id hid => ?_, fun item hitem hforgotten => ?_,
    fun item hitem hforgotten => ?_, fun item hitem hforgotten => ?_, h.rationale,
    fun item hitem hquiet => ?_, fun id hquiet text htext kept hkept => ?_⟩
  · obtain ⟨htexts, hlogged⟩ := hrecord.absent id fun item hitem =>
      hid item (List.mem_append_left _ hitem)
    have hne : id ≠ item'.id := fun heq => hid item' (List.mem_append_right _ List.mem_cons_self) heq.symm
    refine ⟨?_, hlogged⟩
    rw [hother id hne]
    exact htexts
  · rcases hmem item hitem with hitem | rfl
    · exact h.erased item hitem hforgotten
    · exact absurd hforgotten hstatus
  · rcases hmem item hitem with hitem | rfl
    · exact h.unchunked item hitem hforgotten
    · exact absurd hforgotten hstatus
  · rcases hmem item hitem with hitem | rfl
    · exact h.quiet item hitem hforgotten
    · exact absurd hforgotten hstatus
  · rcases hmem item hitem with hitem | rfl
    · obtain ⟨hredacted, htexts⟩ := h.recorded item hitem hquiet
      exact ⟨hredacted, fun text htext => List.mem_append_left _ (htexts text htext)⟩
    · exact ⟨hnote, fun text htext => List.mem_append_right _ (hself.symm ▸ htext)⟩
  · by_cases hid : id = item'.id
    · -- there was nothing before
      subst hid
      obtain ⟨htexts, hlogged⟩ := h.absent item'.id hnew
      have htext : text ∈ item'.texts := by
        rw [htexts, hself] at htext
        exact htext
      have hkept : kept ∈ fixedTexts ++ st.loggedTexts item'.id := hkept
      rw [hlogged, List.append_nil] at hkept
      exact hclear text htext kept hkept
    · refine hrecord.clear id hquiet text ?_ kept hkept
      rw [hother id hid] at htext
      exact htext

/-! ### Logs -/

variable {action : String} {previous next : MemoryStatus} {detail : JsText}

/-- The log or the sources of one memory have grown, without its texts. -/
theorem Discreet.log (h : Discreet texts st) (hitems : st'.items = st.items)
    (hrelations : st'.relations = st.relations) (hchunks : st'.chunks = st.chunks)
    (hothers : ∀ id', id' ≠ id → Untouched id' st st') (hmem : ∃ item ∈ st.items, item.id = id)
    (hquiet : st'.Quiet id ↔ st.Quiet id)
    (hlogged : ∀ text ∈ texts id, ∀ kept ∈ st'.loggedTexts id,
      kept ∈ fixedTexts ++ st.loggedTexts id ∨ ¬ text <:+: kept) : Discreet texts st' := by
  have hquiet : ∀ id', st'.Quiet id' ↔ st.Quiet id' := by
    intro id'
    by_cases hid : id' = id
    · rw [hid]
      exact hquiet
    · rw [Store.Quiet, (hothers id' hid).actions, Store.Quiet]
  refine ⟨?_, fun id' hid => ?_, ?_, ?_, ?_, ?_, ?_, fun id' hq text htext kept hkept => ?_⟩
  · rw [Store.UniqueIds, hitems]
    exact h.unique
  · rw [hitems] at hid
    have hne : id' ≠ id := by
      obtain ⟨item, hitem, heq⟩ := hmem
      exact fun h => hid item hitem (heq.trans h.symm)
    rw [loggedTexts_of_untouched (hothers id' hne)]
    exact h.absent id' hid
  · rw [hitems]
    exact h.erased
  · rw [hitems, hchunks]
    exact h.unchunked
  · rw [hitems]
    exact fun item hitem hstatus => (hquiet item.id).mpr (h.quiet item hitem hstatus)
  · rw [hrelations]
    exact h.rationale
  · rw [hitems]
    exact fun item hitem hq => h.recorded item hitem ((hquiet item.id).mp hq)
  · have hclear := h.clear id' ((hquiet id').mp hq) text htext
    rcases List.mem_append.mp hkept with hfixed | hkept
    · exact hclear kept (List.mem_append_left _ hfixed)
    · by_cases hid : id' = id
      · subst hid
        exact (hlogged text htext kept hkept).elim (hclear kept) fun hnot => hnot
      · rw [loggedTexts_of_untouched (hothers id' hid)] at hkept
        exact hclear kept (List.mem_append_right _ hkept)

omit [JsNumber N] in
theorem quiet_addMemoryAction :
    (st.addMemoryAction now id user action previous next detail).Quiet id ↔ st.Quiet id ∧
      MemoryAction.holdsText ⟨id, user.orgId, user.id, action, previous, next, detail, now⟩ = false := by
  rw [Store.Quiet, actionsOf_addMemoryAction, List.forall_mem_append, List.forall_mem_singleton,
    Store.Quiet]

/-- A record with one of the program's own words, or with none of the texts of the memory. -/
theorem Discreet.addMemoryAction (h : Discreet texts st) (hmem : ∃ item ∈ st.items, item.id = id)
    (hword : MemoryAction.holdsText
      ⟨id, user.orgId, user.id, action, previous, next, detail, now⟩ = false)
    (hdetail : detail ∈ fixedTexts ∨ ∀ text ∈ texts id, ¬ text <:+: detail) :
    Discreet texts (st.addMemoryAction now id user action previous next detail) := by
  refine h.log rfl rfl rfl (fun id' hid => untouched_addMemoryAction hid) hmem ?_ ?_
  · rw [quiet_addMemoryAction]
    exact and_iff_left hword
  · intro text htext kept hkept
    rw [Store.loggedTexts, actionsOf_addMemoryAction, List.map_append, List.append_assoc] at hkept
    rcases List.mem_append.mp hkept with hkept | hkept
    · exact .inl (List.mem_append_right _ (List.mem_append_left _ hkept))
    · rcases List.mem_append.mp hkept with hkept | hkept
      · rw [List.mem_singleton.mp hkept]
        exact hdetail.imp (List.mem_append_left _) fun hnot => hnot text htext
      · exact .inl (List.mem_append_right _ (List.mem_append_right _ hkept))

theorem Discreet.addMemorySource (h : Discreet texts st) {source : MemorySource}
    (hmem : ∃ item ∈ st.items, item.id = source.memoryId)
    (hsource : ∀ text ∈ texts source.memoryId, ∀ kept ∈ source.texts, ¬ text <:+: kept) :
    Discreet texts (st.addMemorySource source) := by
  rw [Store.addMemorySource]
  split
  · exact h
  · rename_i hnot
    refine h.log rfl rfl rfl (fun id' hid => ?_) hmem Iff.rfl fun text htext kept hkept => ?_
    · have : Untouched id' st (st.addMemorySource source) := untouched_addMemorySource hid
      rwa [Store.addMemorySource, if_neg hnot] at this
    · rw [Store.loggedTexts, Store.sourcesOf, List.filter_append, List.flatMap_append,
        ← List.append_assoc] at hkept
      rcases List.mem_append.mp hkept with hkept | hkept
      · exact .inl (List.mem_append_right _ hkept)
      · obtain ⟨other, hother, hkept⟩ := List.mem_flatMap.mp hkept
        rw [List.mem_singleton.mp (List.mem_filter.mp hother).1] at hkept
        exact .inr (hsource text htext kept hkept)

theorem Discreet.addMemorySources (h : Discreet texts st) {sources : List MemorySourceInput}
    (hmem : ∃ item ∈ st.items, item.id = id)
    (hsources : ∀ text ∈ texts id, ∀ kept ∈ sourceTexts now id sources, ¬ text <:+: kept) :
    Discreet texts (addMemorySources now st id sources) := by
  rw [AgentService.addMemorySources]
  induction sources generalizing st with
  | nil => exact h
  | cons source sources ih =>
    rw [sourceTexts, List.flatMap_cons] at hsources
    have hone : Discreet texts (st.addMemorySource (source.row now id)) :=
      h.addMemorySource hmem fun text htext kept hkept =>
        hsources text htext kept (List.mem_append_left _ hkept)
    refine ih hone ?_ fun text htext kept hkept =>
      hsources text htext kept (List.mem_append_right _ hkept)
    have hitems : (st.addMemorySource (source.row now id)).items = st.items :=
      (show (addMemorySources now st id [source]).items = st.items from addMemorySources_eq.1)
    rw [hitems]
    exact hmem

/-- An update with a record that holds a text: the memory must not be forgotten afterwards. -/
theorem Discreet.addText (h : Discreet texts st) (hf : ∀ row, (f row).id = row.id)
    (hmem : ∃ item ∈ st.items, item.id = id)
    (hstatus : ∀ row ∈ st.items, row.id = id → (f row).status ≠ .forgotten)
    (hholds : MemoryAction.holdsText
      ⟨id, user.orgId, user.id, action, previous, next, detail, now⟩ = true) :
    Discreet texts ((st.updateItem id f).addMemoryAction now id user action previous next detail) := by
  have hsame : ∀ id', id' ≠ id → Untouched id' st
      ((st.updateItem id f).addMemoryAction now id user action previous next detail) := fun id' hid =>
    untouched_recorded hf hid
  -- afterwards the log of the memory is not quiet
  have hquiet : ∀ id', ((st.updateItem id f).addMemoryAction now id user action previous next
      detail).Quiet id' → id' ≠ id ∧ st.Quiet id' := by
    intro id' hquiet
    by_cases hid : id' = id
    · rw [hid, quiet_addMemoryAction, hholds] at hquiet
      cases hquiet.2
    · rw [Store.Quiet, (hsame id' hid).actions] at hquiet
      exact ⟨hid, hquiet⟩
  -- a row that is forgotten is one of the others
  have hother : ∀ item ∈ (st.updateItem id f).items, item.id ≠ id → item ∈ st.items := by
    intro item hitem hne
    obtain ⟨row, hrow, rfl⟩ := mem_updateItem.mp hitem
    by_cases hid : row.id = id
    · rw [if_pos hid, hf] at hne
      exact absurd hid hne
    · rwa [if_neg hid]
  have hforgotten : ∀ item ∈ (st.updateItem id f).items, item.status = .forgotten → item.id ≠ id := by
    intro item hitem hforgotten
    obtain ⟨row, hrow, rfl⟩ := mem_updateItem.mp hitem
    by_cases hid : row.id = id
    · rw [if_pos hid] at hforgotten
      exact absurd hforgotten (hstatus row hrow hid)
    · rwa [if_neg hid]
  refine ⟨uniqueIds_updateItem hf h.unique, fun id' hid => ?_, fun item hitem hstatus => ?_,
    fun item hitem hstatus => ?_, fun item hitem hstatus => ?_, h.rationale,
    fun item hitem hq => ?_, fun id' hq => ?_⟩
  · have habsent : ∀ item ∈ st.items, item.id ≠ id' := by
      intro row hrow heq
      refine hid _ (mem_updateItem.mpr ⟨row, hrow, rfl⟩) ?_
      split
      · rw [hf, heq]
      · exact heq
    have hne : id' ≠ id := by
      obtain ⟨item, hitem, heq⟩ := hmem
      exact fun h => habsent item hitem (heq.trans h.symm)
    rw [loggedTexts_of_untouched (hsame id' hne)]
    exact h.absent id' habsent
  · exact h.erased item (hother item hitem (hforgotten item hitem hstatus)) hstatus
  · exact h.unchunked item (hother item hitem (hforgotten item hitem hstatus)) hstatus
  · have hne := hforgotten item hitem hstatus
    rw [Store.Quiet, (hsame item.id hne).actions]
    exact h.quiet item (hother item hitem hne) hstatus
  · obtain ⟨hne, hbefore⟩ := hquiet item.id hq
    exact h.recorded item (hother item hitem hne) hbefore
  · obtain ⟨hne, hbefore⟩ := hquiet id' hq
    rw [loggedTexts_of_untouched (hsame id' hne)]
    exact h.clear id' hbefore

end Discreet

/-! ### Operations -/

section Operations

variable {st : Store N} {texts : JsText → List JsText} {id : JsText} {lib : MemoryLibrary N} {now : Int}
  {user : AuthenticatedUser} {item row row' : MemoryItem N} {f : MemoryItem N → MemoryItem N}
  {changes : JsText → List JsText}

omit [JsNumber N] in
theorem row_eq (hunique : st.UniqueIds) (hitem : item ∈ st.items) (hrow : row ∈ st.items)
    (hid : row.id = item.id) : row = item :=
  List.inj_on_of_nodup_map hunique hrow hitem hid

/-- A text of a memory. -/
theorem mem_texts {text : JsText} : text ∈ item.texts ↔ text ≠ [] ∧
    ((item.title ≠ forgottenTitle ∧ text = item.title) ∨ text = item.summary ∨ text = item.note ∨
      text ∈ contentTexts item.content) := by
  rw [MemoryItem.texts, List.mem_filter, List.mem_append, List.mem_append, decide_eq_true_eq, and_comm,
    List.mem_pair, or_assoc, or_assoc]
  refine and_congr_right fun _ => or_congr_left ?_
  split
  · rename_i htitle
    simp [htitle]
  · rename_i htitle
    simp [htitle]

omit [JsNumber N] in
theorem noteRedacted_redact {text : JsText} (h : row.note = (redactString text).take 4000) :
    NoteRedacted row := by
  rw [NoteRedacted, h, redactString_take, List.take_take, Nat.min_self]

/-- An update of the numbers and the status of a memory, which is not forgotten. -/
theorem Gentle.of_eq (htitle : row'.title = row.title) (hsummary : row'.summary = row.summary)
    (hnote : row'.note = row.note) (hcontent : row'.content = row.content)
    (hstatus : row'.status ≠ .forgotten) : Gentle row row' := by
  refine ⟨fun hredacted => ⟨?_, fun text htext => ?_⟩, fun hforgotten => absurd hforgotten hstatus⟩
  · rw [NoteRedacted, hnote]
    exact hredacted
  · rw [mem_texts, htitle, hsummary, hnote, hcontent] at htext
    exact mem_texts.mpr htext

/-! ### Memories that are not forgotten -/

/-- The rows of some memories are not forgotten. -/
def Store.Remembers (st : Store N) (items : List (MemoryItem N)) : Prop :=
  ∀ item ∈ items, ∀ row ∈ st.items, row.id = item.id → row.status ≠ .forgotten

omit [JsNumber N] in
theorem remembers_of_mem (hunique : st.UniqueIds) {items : List (MemoryItem N)}
    (h : ∀ item ∈ items, item ∈ st.items ∧ item.status ≠ .forgotten) : st.Remembers items := by
  intro item hitem row hrow hid
  rw [row_eq hunique (h item hitem).1 hrow hid]
  exact (h item hitem).2

/-- An update that leaves the texts, and does not forget. -/
structure KeepsTexts (f : MemoryItem N → MemoryItem N) : Prop where
  id : ∀ row, (f row).id = row.id
  title : ∀ row, (f row).title = row.title
  summary : ∀ row, (f row).summary = row.summary
  note : ∀ row, (f row).note = row.note
  content : ∀ row, (f row).content = row.content
  status : ∀ row, row.status ≠ .forgotten → (f row).status ≠ .forgotten

omit [JsNumber N] in
theorem remembers_updateItem {items : List (MemoryItem N)} (h : st.Remembers items)
    (hf : ∀ row, (f row).id = row.id)
    (hstatus : ∀ row, row.status ≠ .forgotten → (f row).status ≠ .forgotten) :
    (st.updateItem id f).Remembers items := by
  intro item hitem row' hrow' hid
  obtain ⟨row, hrow, rfl⟩ := mem_updateItem.mp hrow'
  by_cases heq : row.id = id
  · rw [if_pos heq] at hid ⊢
    exact hstatus row (h item hitem row hrow ((hf row).symm.trans hid))
  · rw [if_neg heq] at hid ⊢
    exact h item hitem row hrow hid

/-- What is kept while memories that are not forgotten are worked on. -/
structure DiscreetOn (items : List (MemoryItem N)) (texts : JsText → List JsText) (st : Store N) :
    Prop where
  discreet : Discreet texts st
  remembers : st.Remembers items
  mem : ∀ item ∈ items, ∃ row ∈ st.items, row.id = item.id

variable {items : List (MemoryItem N)}

omit [JsNumber N] in
theorem exists_updateItem (hf : ∀ row, (f row).id = row.id) {id' : JsText}
    (h : ∃ row ∈ st.items, row.id = id') : ∃ row ∈ (st.updateItem id f).items, row.id = id' := by
  obtain ⟨row, hrow, hid⟩ := h
  refine ⟨_, mem_updateItem.mpr ⟨row, hrow, rfl⟩, ?_⟩
  split
  · rw [hf, hid]
  · exact hid

theorem DiscreetOn.touch (h : DiscreetOn items texts st) (hitem : item ∈ items) (hf : KeepsTexts f) :
    DiscreetOn items texts (st.updateItem item.id f) := by
  refine ⟨h.discreet.updateItem hf.id fun row hrow hid => ?_,
    remembers_updateItem h.remembers hf.id hf.status, fun other hother =>
      exists_updateItem hf.id (h.mem other hother)⟩
  exact .of_eq (hf.title row) (hf.summary row) (hf.note row) (hf.content row)
    (hf.status row (h.remembers item hitem row hrow hid))

/-- Memories of the store that are not forgotten. -/
theorem discreetOn_of_mem (h : Discreet texts st)
    (hitems : ∀ item ∈ items, item ∈ st.items ∧ item.status ≠ .forgotten) :
    DiscreetOn items texts st :=
  ⟨h, remembers_of_mem h.unique hitems, fun item hitem => ⟨item, (hitems item hitem).1, rfl⟩⟩

/-! ### Creation -/

omit [JsNumber N] in
/-- A record of the program's own. -/
theorem holdsText_of_mem {action : MemoryAction} (h : action.action ∈ ["created", "auto_suspended",
    "reinforced", "expired", "auto_archived", "conflict_suspended", "forgotten"]) :
    action.holdsText = false :=
  decide_eq_false fun hholds => hholds.2 h

theorem keepsTexts_reinforce {input : CreateInput N} (item : MemoryItem N) :
    KeepsTexts (input.reinforce lib now item) :=
  ⟨fun _ => by rw [CreateInput.reinforce], fun _ => by rw [CreateInput.reinforce],
    fun _ => by rw [CreateInput.reinforce], fun _ => by rw [CreateInput.reinforce],
    fun _ => by rw [CreateInput.reinforce], fun _ hstatus => by rwa [CreateInput.reinforce]⟩

theorem discreet_reinforceMemory {input : CreateInput N} (h : Discreet texts st)
    (hexisting : input.existing lib user st = some item)
    (hsources : ∀ text ∈ texts item.id, ∀ kept ∈ sourceTexts now item.id input.sources,
      ¬ text <:+: kept) :
    Discreet texts (reinforceMemory lib now user input item st).1 := by
  have hrow : DiscreetOn [item] texts (st.updateItem item.id (input.reinforce lib now item)) := by
    refine (discreetOn_of_mem h fun other hother => ?_).touch List.mem_cons_self
      (keepsTexts_reinforce item)
    rw [List.mem_singleton.mp hother]
    exact existing_mem hexisting
  have hmem := hrow.mem item List.mem_cons_self
  have hsourced := hrow.discreet.addMemorySources hmem hsources
  rw [reinforceMemory]
  refine (hsourced.addMemoryAction ?_ ?_ (.inl ?_)).getMemory item.id user input.context
  · rw [addMemorySources_eq.1]
    exact hmem
  · exact holdsText_of_mem (by simp)
  · exact of_mem_fixedTexts (by simp [fixedDetails])

theorem discreet_completeMemory {input : CreateInput N} {id : JsText} (h : Discreet texts st)
    (hmem : ∃ item ∈ st.items, item.id = id)
    (hclear : ∀ text ∈ texts id,
      ∀ kept ∈ input.createdDetail lib :: sourceTexts now id input.sources, ¬ text <:+: kept) :
    Discreet texts (completeMemory lib now user input id st).1 ∧
      (completeMemory lib now user input id st).1.items = st.items := by
  have hsourced : Discreet texts (addMemorySources now st id input.sources) :=
    h.addMemorySources hmem fun text htext kept hkept =>
      hclear text htext kept (List.mem_cons_of_mem _ hkept)
  have hcreated : Discreet texts ((addMemorySources now st id input.sources).addMemoryAction now id user
      (if (input.injection lib).detected then "auto_suspended" else "created") (input.storedStatus lib)
      (input.storedStatus lib) (input.createdDetail lib)) := by
    refine hsourced.addMemoryAction ?_ ?_ (.inr fun text htext => ?_)
    · rw [addMemorySources_eq.1]
      exact hmem
    · rw [MemoryAction.holdsText]
      split
      · simp
      · simp
    · exact hclear text htext _ List.mem_cons_self
  have hread : Discreet texts (AgentService.getMemory lib now id user input.context _).1 :=
    hcreated.getMemory id user input.context
  have hitems : (getMemory lib now id user input.context ((addMemorySources now st id
      input.sources).addMemoryAction now id user
      (if (input.injection lib).detected then "auto_suspended" else "created") (input.storedStatus lib)
      (input.storedStatus lib) (input.createdDetail lib))).1.items = st.items :=
    getMemory_eq.1.trans addMemorySources_eq.1
  rw [completeMemory]
  split
  rename_i st' created hget
  rw [hget] at hread hitems
  cases created with
  | none => exact ⟨hread, hitems⟩
  | some memory =>
    exact ⟨(hread.createMemoryRelations memory).getMemory id user input.context,
      getMemory_eq.1.trans ((createMemoryRelations_eq memory).1.trans hitems)⟩

/-- The status of a memory that is created. -/
theorem storedStatus_ne_forgotten {input : CreateInput N} (h : input.status ≠ some .forgotten) :
    input.storedStatus lib ≠ .forgotten := by
  rw [CreateInput.storedStatus]
  split
  · intro heq
    cases heq
  · cases hgiven : input.status with
    | none =>
      intro heq
      cases heq
    | some status =>
      intro heq
      exact h (hgiven.trans (congrArg some heq))

theorem discreet_insertMemory {input : CreateInput N} {id : JsText} (h : Discreet texts st)
    (hfresh : ∀ item ∈ st.items, item.id ≠ id) (hstatus : input.status ≠ some .forgotten)
    (hclear : ∀ text ∈ (input.row lib now user id).texts,
      ∀ kept ∈ input.createdDetail lib :: fixedTexts ++ sourceTexts now id input.sources,
        ¬ text <:+: kept) :
    Discreet (fun id' => texts id' ++ (completeMemory lib now user input id
        { st with items := st.items ++ [input.row lib now user id] }).1.textsOf id')
      (completeMemory lib now user input id
        { st with items := st.items ++ [input.row lib now user id] }).1 := by
  have hrow : (input.row lib now user id).status ≠ .forgotten := by
    rw [CreateInput.row]
    exact storedStatus_ne_forgotten hstatus
  have hnote : (input.row lib now user id).note = (redactString input.note).take 4000 := by
    rw [CreateInput.row, CreateInput.storedNote]
  have hinsert := h.insert (input.row lib now user id) hfresh hrow (noteRedacted_redact hnote)
    fun text htext kept hkept =>
      hclear text htext kept (List.mem_cons_of_mem _ (List.mem_append_left _ hkept))
  have hmem : ∃ item ∈ st.items ++ [input.row lib now user id], item.id = id :=
    ⟨_, List.mem_append_right _ List.mem_cons_self, rfl⟩
  have htexts : ({ st with items := st.items ++ [input.row lib now user id] } : Store N).textsOf id =
      (input.row lib now user id).texts := textsOf_insert_self rfl hfresh
  have hnew : ∀ text ∈ texts id ++
      ({ st with items := st.items ++ [input.row lib now user id] } : Store N).textsOf id,
      ∀ kept ∈ input.createdDetail lib :: sourceTexts now id input.sources, ¬ text <:+: kept := by
    intro text htext kept hkept
    rw [(h.absent id hfresh).1, htexts] at htext
    refine hclear text htext kept ?_
    rcases List.mem_cons.mp hkept with rfl | hkept
    · exact List.mem_cons_self
    · exact List.mem_cons_of_mem _ (List.mem_append_right _ hkept)
  obtain ⟨hcomplete, hitems⟩ : _ ∧ (completeMemory lib now user input id _).1.items = _ :=
    discreet_completeMemory hinsert hmem hnew
  have htexts : ∀ id', (completeMemory lib now user input id
      { st with items := st.items ++ [input.row lib now user id] }).1.textsOf id' =
        ({ st with items := st.items ++ [input.row lib now user id] } : Store N).textsOf id' := by
    intro id'
    rw [Store.textsOf, Store.row?, hitems, ← Store.row?, Store.textsOf]
  rw [funext fun id' => congrArg (texts id' ++ ·) (htexts id')]
  exact hcomplete

theorem discreet_createMemory (h : Discreet texts st) {id : JsText} {input : CreateInput N}
    (hcareful : Careful lib ⟨st, texts⟩ (.create user id input, now)) :
    Discreet (fun id' => texts id' ++ (createMemory lib now user id input st).1.textsOf id')
      (createMemory lib now user id input st).1 := by
  rw [createMemory]
  cases hscope : input.scopeError user with
  | some err => exact h.record
  | none =>
    have hcareful := hcareful hscope
    dsimp only at hcareful
    cases hexisting : input.existing lib user st with
    | some item =>
      rw [hexisting] at hcareful
      exact (discreet_reinforceMemory h hexisting hcareful).record
    | none =>
      rw [hexisting] at hcareful
      obtain ⟨hstatus, hclear⟩ := hcareful
      dsimp only
      split
      · exact h.record
      · rename_i hused
        have hfresh : ∀ item ∈ st.items, item.id ≠ id := fun item hitem heq =>
          hused (List.any_eq_true.mpr ⟨item, hitem, decide_eq_true heq⟩)
        exact discreet_insertMemory h hfresh hstatus hclear

/-! ### Changes -/

variable {input : UpdateInput} {current : MemoryItem N}

omit [JsNumber N] in
/-- The action of an update is none of those that the program records with its own words. -/
theorem holdsText_updated {detail : JsText} (h : detail ≠ []) {previous next : MemoryStatus} :
    MemoryAction.holdsText
      ⟨id, user.orgId, user.id, input.action current, previous, next, detail, now⟩ = true := by
  have haction : input.action current ∉ ["created", "auto_suspended", "reinforced", "expired",
      "auto_archived", "conflict_suspended", "forgotten"] := by
    rw [UpdateInput.action]
    split
    · cases input.nextStatus current with
      | active => decide
      | verified => decide
      | suspended => decide
      | archived => decide
      | forgotten => decide
    · split
      · split
        · decide
        · decide
      · decide
  exact decide_eq_true ⟨h, haction⟩

/-- An update without a note. -/
theorem gentle_apply (hnote : input.note.getD [] = [])
    (hforgets : input.nextStatus current = .forgotten →
      current.status = .forgotten ∧ input.nextPinned current = false) :
    Gentle current (input.apply now current current) := by
  have hnext : (input.apply now current current).note = [] ∨
      (input.apply now current current).note = (redactString current.note).take 4000 := by
    show (redactString (input.note.getD current.note)).take 4000 = [] ∨ _
    cases hgiven : input.note with
    | none =>
      right
      show (redactString (input.note.getD current.note)).take 4000 = _
      rw [hgiven]
      rfl
    | some note =>
      left
      rw [hgiven] at hnote
      have hnil : note = [] := hnote
      rw [hnil]
      rfl
  refine ⟨fun hredacted => ⟨noteRedacted_redact rfl, fun text htext => ?_⟩, fun hforgotten => ?_⟩
  · obtain ⟨hne, htext⟩ := mem_texts.mp htext
    refine mem_texts.mpr ⟨hne, htext.imp_right (Or.imp_right (Or.imp_left fun heq => ?_))⟩
    rcases hnext with hnil | hsame
    · exact absurd (heq.trans hnil) hne
    · rw [heq, hsame]
      exact hredacted
  · obtain ⟨hstatus, hpinned⟩ := hforgets hforgotten
    refine ⟨hstatus, fun herased => ⟨herased.title, herased.summary, herased.content, ?_, herased.tags,
      herased.keywords, herased.serviceName, ?_, hpinned⟩⟩
    · rcases hnext with hnil | hsame
      · exact hnil
      · rw [hsame, herased.note]
        rfl
    · show input.nextVitality current = 0
      have hunverified : input.nextStatus current ≠ .verified := by
        intro hverified
        rw [show input.nextStatus current = .forgotten from hforgotten] at hverified
        cases hverified
      rw [UpdateInput.nextVitality, if_neg hunverified]
      exact herased.vitality

/-- The change of a memory that has been read. -/
theorem discreet_apply (h : Discreet texts st) (hcurrent : current ∈ st.items)
    (hcareful : input.nextStatus current = .forgotten →
      current.status = .forgotten ∧ input.nextPinned current = false ∧ input.note.getD [] = []) :
    Discreet texts ((st.updateItem current.id (input.apply now current)).addMemoryAction now current.id
      user (input.action current) current.status (input.nextStatus current) (input.note.getD [])) := by
  by_cases hnote : input.note.getD [] = []
  · have hrow : Discreet texts (st.updateItem current.id (input.apply now current)) := by
      refine h.updateItem (fun _ => rfl) fun row hrow hid => ?_
      rw [row_eq h.unique hcurrent hrow hid]
      exact gentle_apply hnote fun hforgotten =>
        ⟨(hcareful hforgotten).1, (hcareful hforgotten).2.1⟩
    refine hrow.addMemoryAction ⟨_, mem_updateItem.mpr ⟨current, hcurrent, if_pos rfl⟩, rfl⟩ ?_ ?_
    · simp [MemoryAction.holdsText, hnote]
    · rw [hnote]
      exact .inl List.mem_cons_self
  · refine h.addText (fun _ => rfl) ⟨current, hcurrent, rfl⟩ (fun row hrow hid hforgotten => ?_)
      (holdsText_updated hnote)
    exact hnote (hcareful hforgotten).2.2

omit [JsNumber N] in
theorem mayChange_of_not (h : ¬ (current.scope = .organization ∧ user.role ≠ .admin)) :
    mayChange user current = true := by
  rw [mayChange, decide_eq_true_eq]
  exact (not_and_or.mp h).imp_right not_not.mp

theorem discreet_updateMemory (h : Discreet texts st)
    (hcareful : Careful lib ⟨st, texts⟩ (.update user id input, now)) :
    Discreet texts (updateMemory lib now user id input st).1 := by
  rw [updateMemory, withMemory]
  rcases getMemory_cases lib now id user .none st with hget | ⟨current, hcurrent, rfl, -, -, hget⟩
  · rw [hget]
    exact h
  · have hcareful := hcareful current (by
      rw [hget]
      exact rfl)
    rw [hget]
    dsimp only
    have hread : Discreet texts (hydrateMemories lib now st [current]) :=
      h.hydrateMemories fun other hother => (List.mem_singleton.mp hother) ▸ hcurrent
    split
    · exact hread
    · rename_i hallowed
      have hmay : mayChange user current = true := mayChange_of_not hallowed
      have hcurrent : current ∈ (hydrateMemories lib now st [current]).items := by
        rwa [hydrateMemories_items]
      have happly : Discreet texts (Store.addMemoryAction now _ current.id user _ _ _ _) :=
        discreet_apply hread hcurrent (hcareful hmay)
      refine Discreet.getMemory ?_ current.id user .none
      split
      · -- the chunks are not read by the record
        exact happly.updateChunks current.id (input.nextConfidence current)
      · exact happly

theorem discreet_forgetMemory (h : Discreet texts st)
    (hcareful : Careful lib ⟨st, texts⟩ (.forget user id, now)) :
    Discreet texts (forgetMemory lib now user id st).1 := by
  rw [forgetMemory, withMemory]
  rcases getMemory_cases lib now id user .none st with hget | ⟨current, hcurrent, rfl, -, -, hget⟩
  · rw [hget]
    exact h
  · have hquiet : mayChange user current = true → st.Quiet current.id := hcareful current (by
      rw [hget]
      exact rfl)
    rw [hget]
    dsimp only
    have hread : Discreet texts (hydrateMemories lib now st [current]) :=
      h.hydrateMemories fun other hother => (List.mem_singleton.mp hother) ▸ hcurrent
    split
    · exact hread
    · rename_i hallowed
      have hread_quiet : (hydrateMemories lib now st [current]).Quiet current.id := by
        rw [Store.Quiet, (untouched_hydrateMemories [current] current.id).actions]
        exact hquiet (mayChange_of_not hallowed)
      refine Discreet.getMemory ((hread.forget hread_quiet).addMemoryAction ?_ ?_ (.inl ?_))
        current.id user .none
      · refine ⟨_, mem_updateItem.mpr ⟨current, ?_, if_pos rfl⟩, rfl⟩
        rwa [hydrateMemories_items]
      · simp [MemoryAction.holdsText]
      · exact List.mem_cons_of_mem _ List.mem_cons_self

/-! ### Retrieval and maintenance -/

/-- A record of what is done to one of the memories, in the program's own words. -/
theorem DiscreetOn.record {action : String} {previous next : MemoryStatus} {detail : JsText}
    (h : DiscreetOn items texts st) (hitem : item ∈ items) (hdetail : detail ∈ fixedTexts)
    (haction : action ∈ ["created", "auto_suspended", "reinforced", "expired", "auto_archived",
      "conflict_suspended", "forgotten"]) :
    DiscreetOn items texts (st.addMemoryAction now item.id user action previous next detail) := by
  refine ⟨h.discreet.addMemoryAction (h.mem item hitem) ?_ (.inl hdetail), h.remembers, h.mem⟩
  exact holdsText_of_mem haction

theorem discreetOn_retrieve (l : List (MemoryItem N)) (hl : ∀ item ∈ l, item ∈ items)
    (h : DiscreetOn items texts st) :
    DiscreetOn items texts
      (l.foldl (fun st memory => st.updateItem memory.id (MemoryItem.access now)) st) := by
  induction l generalizing st with
  | nil => exact h
  | cons memory l ih =>
    have haccess : KeepsTexts (MemoryItem.access now : MemoryItem N → MemoryItem N) :=
      ⟨fun _ => rfl, fun _ => rfl, fun _ => rfl, fun _ => rfl, fun _ => rfl, fun _ hstatus => hstatus⟩
    exact ih (fun item hitem => hl item (List.mem_cons_of_mem _ hitem))
      (h.touch (hl memory List.mem_cons_self) haccess)

theorem discreet_retrieveMemories (h : Discreet texts st) {context : MemoryContext}
    {includeInactive : Bool} {ranking : Ranking N}
    (hcareful : Careful lib ⟨st, texts⟩ (.retrieve user context includeInactive ranking, now)) :
    Discreet texts (retrieveMemories lib now user context includeInactive ranking st).1 := by
  have hlisted : ∀ item ∈ listedMemories lib user (.all context includeInactive 800) st,
      item ∈ st.items := fun item hitem => (of_mem_listedMemories hitem).1
  have hread : Discreet texts (hydrateMemories lib now st _) := h.hydrateMemories hlisted
  refine (discreetOn_retrieve _ (fun item hitem => hitem) (discreetOn_of_mem hread ?_)).discreet
  intro item hitem
  rw [hydrateMemories_items]
  exact ⟨hlisted item ((ranking.subperm _).subset hitem), hcareful item hitem⟩

/-- One thing that a maintenance does. -/
theorem DiscreetOn.run (h : DiscreetOn items texts st) {u : Upkeep N} (hu : ∀ item ∈ u.changed, item ∈ items) :
    DiscreetOn items texts (Upkeep.run now user st u) := by
  have harchived : MemoryStatus.archived ≠ .forgotten := by decide
  have hsuspended : MemoryStatus.suspended ≠ .forgotten := by decide
  cases u with
  | expire item =>
    refine (h.touch (hu item List.mem_cons_self) ?_).record (hu item List.mem_cons_self)
      (of_mem_fixedTexts (by simp [fixedDetails])) (by simp)
    exact ⟨fun _ => rfl, fun _ => rfl, fun _ => rfl, fun _ => rfl, fun _ => rfl, fun _ _ => harchived⟩
  | decay item vitality =>
    refine h.touch (hu item List.mem_cons_self) ?_
    exact ⟨fun _ => rfl, fun _ => rfl, fun _ => rfl, fun _ => rfl, fun _ => rfl, fun _ hstatus => hstatus⟩
  | archive item =>
    refine (h.touch (hu item List.mem_cons_self) ?_).record (hu item List.mem_cons_self)
      (of_mem_fixedTexts (by simp [fixedDetails])) (by simp)
    exact ⟨fun _ => rfl, fun _ => rfl, fun _ => rfl, fun _ => rfl, fun _ => rfl, fun _ _ => harchived⟩
  | suspend weaker =>
    refine (h.touch (hu weaker List.mem_cons_self) ?_).record (hu weaker List.mem_cons_self)
      (of_mem_fixedTexts (by simp [fixedDetails])) (by simp)
    exact ⟨fun _ => rfl, fun _ => rfl, fun _ => rfl, fun _ => rfl, fun _ => rfl, fun _ _ => hsuspended⟩
  | conflict left right score =>
    have hrationale : JsText.of "维护任务检测到同一主题的相反状态描述。" ∈ fixedTexts :=
      of_mem_fixedTexts (by simp [fixedDetails])
    refine ⟨h.discreet.addMemoryRelation hrationale, ?_, ?_⟩
    · rw [Store.Remembers, Upkeep.run, addMemoryRelation_eq.1]
      exact h.remembers
    · rw [Upkeep.run, addMemoryRelation_eq.1]
      exact h.mem
  | merge left right =>
    have hright : right ∈ items := hu right (List.mem_cons_of_mem _ List.mem_cons_self)
    have hleft : DiscreetOn items texts (st.updateItem left.id fun row =>
        { row with
          reinforcementCount := row.reinforcementCount + 1
          vitality := min 100 (row.vitality + 5)
          lastReinforcedAt := now
          updatedAt := now }) := by
      refine h.touch (hu left List.mem_cons_self) ?_
      exact ⟨fun _ => rfl, fun _ => rfl, fun _ => rfl, fun _ => rfl, fun _ => rfl,
        fun _ hstatus => hstatus⟩
    let merge : MemoryItem N → MemoryItem N := fun row =>
      { row with status := .archived, note := mergedNote left, updatedAt := now }
    have hmerge : ∀ row, (merge row).id = row.id := fun _ => rfl
    refine ⟨hleft.discreet.addText hmerge (hleft.mem right hright) (fun _ _ _ => harchived) ?_,
      remembers_updateItem hleft.remembers hmerge fun _ _ => harchived,
      fun item hitem => exists_updateItem hmerge (hleft.mem item hitem)⟩
    -- the note of a merged memory is a text
    have hnote : mergedNote left ≠ [] := List.append_ne_nil_of_left_ne_nil (by decide) _
    have haction : "merged" ∉ ["created", "auto_suspended", "reinforced", "expired", "auto_archived",
        "conflict_suspended", "forgotten"] := by decide
    exact decide_eq_true ⟨hnote, haction⟩

theorem upkeep_remembered (items : List (MemoryItem N)) :
    upkeep lib now (items.filter fun item => item.status ≠ .forgotten) = upkeep lib now items := by
  rw [upkeep, upkeep, onlinePairs, onlinePairs, List.filter_filter]
  congr 1
  · induction items with
    | nil => rfl
    | cons item items ih =>
      rw [List.filter_cons, List.flatMap_cons]
      split
      · rw [List.flatMap_cons, ih]
      · rename_i hforgotten
        have hnone : itemUpkeep lib now item = [] := by
          rw [itemUpkeep, if_pos (by simpa using hforgotten)]
        rw [hnone, ih]
        rfl
  · refine congrArg (fun online => (pairs online).flatMap (pairUpkeep lib)) ?_
    refine List.filter_congr fun item _ => ?_
    cases item.status with
    | active => rfl
    | verified => rfl
    | suspended => rfl
    | archived => rfl
    | forgotten => rfl

theorem discreetOn_maintain (steps : List (Upkeep N))
    (hsteps : ∀ u ∈ steps, ∀ item ∈ u.changed, item ∈ items) (h : DiscreetOn items texts st) :
    DiscreetOn items texts (steps.foldl (Upkeep.run now user) st) := by
  induction steps generalizing st with
  | nil => exact h
  | cons u steps ih =>
    exact ih (fun v hv => hsteps v (List.mem_cons_of_mem _ hv)) (h.run (hsteps u List.mem_cons_self))

theorem discreet_maintainMemories (h : Discreet texts st) (limit : Nat) :
    Discreet texts (maintainMemories lib now user limit st).1 := by
  have hread : Discreet texts (hydrateMemories lib now st
      (listedMemories lib user (.all .none true (min limit 500)) st)) :=
    h.hydrateMemories fun item hitem => (of_mem_listedMemories hitem).1
  rw [maintainMemories]
  dsimp only
  rw [← upkeep_remembered]
  refine (discreetOn_maintain _ (fun u hu item hitem => mem_of_changed hu hitem)
    (discreetOn_of_mem hread fun item hitem => ?_)).discreet
  obtain ⟨hmaintained, hstatus⟩ := List.mem_filter.mp hitem
  rw [hydrateMemories_items]
  exact ⟨(of_mem_maintained hmaintained).1, of_decide_eq_true hstatus⟩

/-! ### Runs -/

/-- **What every careful call keeps.** -/
theorem discreet_recordTexts {s : TextsStore N} {a : MemoryCall N × Int} (h : Discreet s.texts s.store)
    (hcareful : Careful lib s a) : Discreet (recordTexts lib s a).texts (recordTexts lib s a).store := by
  obtain ⟨store, texts⟩ := s
  obtain ⟨call, now⟩ := a
  cases call with
  | create user id input => exact discreet_createMemory h hcareful
  | update user id input => exact (discreet_updateMemory h hcareful).record
  | forget user id => exact (discreet_forgetMemory h hcareful).record
  | retrieve user context includeInactive ranking =>
    exact (discreet_retrieveMemories h hcareful).record
  | maintain user limit => exact (discreet_maintainMemories h limit).record
  | list user input =>
    have hread : Discreet texts (listMemories lib now user input store).1 :=
      h.hydrateMemories fun item hitem => (of_mem_listedMemories hitem).1
    exact hread.record
  | get user id context => exact (h.getMemory id user context).record

/-- What every state keeps that careful calls lead to. -/
structure TextsStore.Sound (s : TextsStore N) : Prop where
  discreet : Discreet s.texts s.store

theorem TextsStore.sound_empty : (TextsStore.empty : TextsStore N).Sound := by
  refine ⟨⟨List.nodup_nil, fun _ _ => ⟨rfl, rfl⟩, ?_, ?_, ?_, ?_, ?_, ?_⟩⟩
  · exact fun item hitem => nomatch hitem
  · exact fun item hitem => nomatch hitem
  · exact fun item hitem => nomatch hitem
  · exact fun relation hrelation => nomatch hrelation
  · exact fun item hitem => nomatch hitem
  · exact fun id _ text htext => nomatch htext

/-- **Forgotten memories are forgotten** in every run of careful calls. -/
theorem erased_of_run {as : List (MemoryCall N × Int)} {s : TextsStore N}
    (h : Run (Guarded (TextsStep lib) (Careful lib)) .empty as s) : s.Forgets := by
  have hsound : s.Sound := h.invariant TextsStore.sound_empty fun t a u ht hstep => by
    obtain ⟨rfl, hcareful⟩ := hstep
    exact ⟨discreet_recordTexts ht.discreet hcareful⟩
  exact hsound.discreet.forgets

end Operations

/-! ### A memory that is patched -/

section Examples

theorem textsStep_recordTexts (s : TextsStore Int) (a : MemoryCall Int × Int) :
    TextsStep promptLibrary s a (recordTexts promptLibrary s a) := Eq.refl _

/-- A memory is created and forgotten. -/
def createThenForget : List (MemoryCall Int × Int) :=
  [(.create keeper (JsText.of "1") (plainInput "db down" 1 0), 1), (.forget keeper (JsText.of "1"), 2)]

theorem erased_of_run_createThenForget :
    (createThenForget.foldl (recordTexts promptLibrary) .empty).Forgets := by
  have hcreate : Careful promptLibrary TextsStore.empty
      (.create keeper (JsText.of "1") (plainInput "db down" 1 0), 1) := by
    intro _
    refine ⟨by decide, ?_⟩
    decide +kernel
  refine erased_of_run ((Run.nil.snoc ⟨textsStep_recordTexts _ _, hcreate⟩).snoc
    ⟨textsStep_recordTexts _ _, ?_⟩)
  intro current hcurrent _
  revert current hcurrent
  unfold Store.Quiet
  decide +kernel

/-- The status of a memory is set to forgotten. -/
def createThenPatch : List (MemoryCall Int × Int) :=
  [(.create keeper (JsText.of "1") (plainInput "db down" 1 0), 1),
    (.update keeper (JsText.of "1") ⟨some .forgotten, none, none, none, none⟩, 2)]

/-- A memory whose status has been patched keeps its title. -/
theorem not_erased_createThenPatch : ¬ ∀ (as : List (MemoryCall Int × Int)) (s : TextsStore Int),
    Run (TextsStep promptLibrary) .empty as s → s.Forgets := by
  intro h
  have hrun : Run (TextsStep promptLibrary) .empty createThenPatch
      (createThenPatch.foldl (recordTexts promptLibrary) .empty) :=
    (Run.nil.snoc (textsStep_recordTexts _ _)).snoc (textsStep_recordTexts _ _)
  have htitle : ∀ item ∈ (createThenPatch.foldl (recordTexts promptLibrary) .empty).store.items,
      item.status = .forgotten → item.title = forgottenTitle := fun item hitem hstatus =>
    ((h _ _ hrun).erased item hitem hstatus).title
  revert htitle
  decide +kernel

end Examples

end AgentService
