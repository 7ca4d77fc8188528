import BoringPanel.AgentService.Memory.Store

/-!
# What the operations leave alone

The row of a memory, its sources and its actions, and which steps of the operations do not touch them
(`Untouched`). Reading touches nothing but chunks.
-/

namespace AgentService

variable {N : Type}

namespace Store

def row? (st : Store N) (id : JsText) : Option (MemoryItem N) := st.items.find? fun item => item.id = id

def statusOf (st : Store N) (id : JsText) : Option MemoryStatus := (st.row? id).map MemoryItem.status

def sourcesOf (st : Store N) (id : JsText) : List MemorySource :=
  st.sources.filter fun source => source.memoryId = id

def actionsOf (st : Store N) (id : JsText) : List MemoryAction :=
  st.actions.filter fun action => action.memoryId = id

/-- The primary key of `scry_memory_items`. -/
def UniqueIds (st : Store N) : Prop := (st.items.map MemoryItem.id).Nodup

end Store

/-- The row of a memory, its sources and its actions are as before. -/
structure Untouched (id : JsText) (st st' : Store N) : Prop where
  row : st'.row? id = st.row? id
  sources : st'.sourcesOf id = st.sourcesOf id
  actions : st'.actionsOf id = st.actionsOf id

section Rows

variable {st st' st'' : Store N} {id id' : JsText} {item : MemoryItem N}
  {f : MemoryItem N → MemoryItem N}

namespace Untouched

theorem refl (id : JsText) (st : Store N) : Untouched id st st := ⟨rfl, rfl, rfl⟩

theorem trans (h : Untouched id st st') (h' : Untouched id st' st'') : Untouched id st st'' :=
  ⟨h'.row.trans h.row, h'.sources.trans h.sources, h'.actions.trans h.actions⟩

/-- Nothing but relations and chunks has changed. -/
theorem of_eq (hitems : st'.items = st.items) (hsources : st'.sources = st.sources)
    (hactions : st'.actions = st.actions) (id : JsText) : Untouched id st st' := by
  refine ⟨?_, ?_, ?_⟩
  · rw [Store.row?, hitems, Store.row?]
  · rw [Store.sourcesOf, hsources, Store.sourcesOf]
  · rw [Store.actionsOf, hactions, Store.actionsOf]

/-- A loop whose turns do not touch a memory does not. -/
theorem foldl {α : Type} {step : Store N → α → Store N} {l : List α}
    (h : ∀ st, ∀ a ∈ l, Untouched id st (step st a)) (st : Store N) :
    Untouched id st (l.foldl step st) := by
  induction l generalizing st with
  | nil => exact refl id st
  | cons a l ih =>
    exact (h st a List.mem_cons_self).trans (ih (fun st b hb => h st b (List.mem_cons_of_mem _ hb)) _)

end Untouched

theorem row?_id (h : st.row? id = some item) : item.id = id := by
  simpa using List.find?_some (h : st.items.find? _ = some item)

theorem mem_of_row? (h : st.row? id = some item) : item ∈ st.items := List.mem_of_find?_eq_some h

theorem find?_id {l : List (MemoryItem N)} (h : l.find? (fun item => item.id = id) = some item) :
    item.id = id := by
  simpa using List.find?_some h

/-- The row of a memory, by the primary key. -/
theorem row?_of_mem (hunique : st.UniqueIds) (h : item ∈ st.items) : st.row? item.id = some item := by
  have hsome : (st.row? item.id).isSome := by
    rw [Store.row?, List.find?_isSome]
    exact ⟨item, h, by simp⟩
  obtain ⟨row, hrow⟩ := Option.isSome_iff_exists.mp hsome
  rw [hrow, List.inj_on_of_nodup_map hunique (mem_of_row? hrow) h (row?_id hrow)]

theorem row?_eq_none_iff : st.row? id = none ↔ ∀ item ∈ st.items, item.id ≠ id := by
  simp [Store.row?, List.find?_eq_none]

/-! ### Updates -/

theorem find?_updateItem (hf : ∀ item, (f item).id = item.id) (l : List (MemoryItem N)) :
    (l.map fun item => if item.id = id then f item else item).find? (fun item => item.id = id') =
      (l.find? fun item => item.id = id').map fun item => if item.id = id then f item else item := by
  rw [List.find?_map]
  congr 1
  refine congrArg (l.find? ·) (funext fun item => ?_)
  show decide (MemoryItem.id (if item.id = id then f item else item) = id') = _
  split
  · rw [hf]
  · rfl

theorem row?_updateItem_self (hf : ∀ item, (f item).id = item.id) :
    (st.updateItem id f).row? id = (st.row? id).map f := by
  show List.find? _ (st.items.map _) = _
  rw [find?_updateItem hf, Store.row?]
  cases h : st.items.find? fun item => item.id = id with
  | none => rfl
  | some item => simp [find?_id h]

theorem row?_updateItem_of_ne (hf : ∀ item, (f item).id = item.id) (h : id' ≠ id) :
    (st.updateItem id f).row? id' = st.row? id' := by
  show List.find? _ (st.items.map _) = _
  rw [find?_updateItem hf, Store.row?]
  cases hrow : st.items.find? fun item => item.id = id' with
  | none => rfl
  | some item =>
    have hne : ¬ item.id = id := by
      rw [find?_id hrow]
      exact h
    simp [hne]

theorem untouched_updateItem (hf : ∀ item, (f item).id = item.id) (h : id' ≠ id) :
    Untouched id' st (st.updateItem id f) :=
  ⟨row?_updateItem_of_ne hf h, rfl, rfl⟩

theorem uniqueIds_updateItem (hf : ∀ item, (f item).id = item.id) (h : st.UniqueIds) :
    (st.updateItem id f).UniqueIds := by
  have hids : (st.items.map fun item => if item.id = id then f item else item).map MemoryItem.id =
      st.items.map MemoryItem.id := by
    rw [List.map_map]
    refine List.map_congr_left fun item _ => ?_
    show MemoryItem.id (if item.id = id then f item else item) = item.id
    split
    · exact hf item
    · rfl
  show ((st.items.map _).map MemoryItem.id).Nodup
  rw [hids]
  exact h

/-- A row that is inserted last. -/
theorem row?_insert (item : MemoryItem N) (h : id' ≠ item.id) :
    ({ st with items := st.items ++ [item] } : Store N).row? id' = st.row? id' := by
  show List.find? _ (st.items ++ [item]) = _
  rw [List.find?_append, Store.row?]
  cases st.items.find? fun item => item.id = id' with
  | none => simp [Ne.symm h]
  | some row => rfl

theorem row?_insert_self (item : MemoryItem N) (h : st.row? item.id = none) :
    ({ st with items := st.items ++ [item] } : Store N).row? item.id = some item := by
  have hnone : st.items.find? (fun row => row.id = item.id) = none := h
  show List.find? _ (st.items ++ [item]) = _
  rw [List.find?_append, hnone]
  simp

theorem uniqueIds_insert (item : MemoryItem N) (hunique : st.UniqueIds) (h : st.row? item.id = none) :
    ({ st with items := st.items ++ [item] } : Store N).UniqueIds := by
  show ((st.items ++ [item]).map MemoryItem.id).Nodup
  rw [List.map_append, List.map_singleton]
  refine List.nodup_append.mpr ⟨hunique, List.nodup_singleton _, ?_⟩
  rintro a ha b hb rfl
  obtain ⟨row, hrow, hid⟩ := List.mem_map.mp ha
  exact row?_eq_none_iff.mp h row hrow (hid.trans (List.mem_singleton.mp hb))

/-! ### Sources and actions -/

variable {now : Int} {user : AuthenticatedUser} {action : String} {previous next : MemoryStatus}
  {detail : JsText}

theorem untouched_addMemoryAction (h : id' ≠ id) :
    Untouched id' st (st.addMemoryAction now id user action previous next detail) := by
  refine ⟨rfl, rfl, ?_⟩
  show List.filter _ (st.actions ++ [_]) = _
  rw [List.filter_append, Store.actionsOf]
  simp [Ne.symm h]

/-- An update of a row, with its record. -/
theorem untouched_recorded (hf : ∀ item, (f item).id = item.id) (h : id' ≠ id) :
    Untouched id' st ((st.updateItem id f).addMemoryAction now id user action previous next detail) :=
  (untouched_updateItem hf h).trans (untouched_addMemoryAction h)

theorem untouched_updateChunks {confidence : Int} :
    Untouched id' st (st.updateChunks now id confidence) :=
  ⟨rfl, rfl, rfl⟩

theorem untouched_deleteChunks : Untouched id' st (st.deleteChunks id) := ⟨rfl, rfl, rfl⟩

theorem actionsOf_addMemoryAction :
    (st.addMemoryAction now id user action previous next detail).actionsOf id =
      st.actionsOf id ++ [⟨id, user.orgId, user.id, action, previous, next, detail, now⟩] := by
  show List.filter _ (st.actions ++ [_]) = _
  rw [List.filter_append, Store.actionsOf]
  simp

theorem untouched_addMemorySource {source : MemorySource} (h : id' ≠ source.memoryId) :
    Untouched id' st (st.addMemorySource source) := by
  rw [Store.addMemorySource]
  split
  · exact .refl _ _
  · refine ⟨rfl, ?_, rfl⟩
    show List.filter _ (st.sources ++ [source]) = _
    rw [List.filter_append, Store.sourcesOf]
    simp [Ne.symm h]

theorem untouched_addMemorySources {sources : List MemorySourceInput} (h : id' ≠ id) :
    Untouched id' st (addMemorySources now st id sources) :=
  .foldl (fun _ _ _ => untouched_addMemorySource h) st

theorem addMemorySources_eq {sources : List MemorySourceInput} :
    (addMemorySources now st id sources).items = st.items ∧
      (addMemorySources now st id sources).actions = st.actions ∧
      (addMemorySources now st id sources).relations = st.relations ∧
      (addMemorySources now st id sources).chunks = st.chunks := by
  have hone : ∀ (st : Store N) (source : MemorySource),
      (st.addMemorySource source).items = st.items ∧ (st.addMemorySource source).actions = st.actions ∧
        (st.addMemorySource source).relations = st.relations ∧
        (st.addMemorySource source).chunks = st.chunks := by
    intro st source
    rw [Store.addMemorySource]
    split
    · exact ⟨rfl, rfl, rfl, rfl⟩
    · exact ⟨rfl, rfl, rfl, rfl⟩
  rw [addMemorySources]
  induction sources generalizing st with
  | nil => exact ⟨rfl, rfl, rfl, rfl⟩
  | cons source sources ih =>
    obtain ⟨hitems, hactions, hrelations, hchunks⟩ := @ih (st.addMemorySource (source.row now id))
    obtain ⟨hitems', hactions', hrelations', hchunks'⟩ := hone st (source.row now id)
    exact ⟨hitems.trans hitems', hactions.trans hactions', hrelations.trans hrelations',
      hchunks.trans hchunks'⟩

theorem addMemoryRelation_eq {relation : MemoryRelation} :
    (st.addMemoryRelation relation).items = st.items ∧
      (st.addMemoryRelation relation).sources = st.sources ∧
      (st.addMemoryRelation relation).actions = st.actions ∧
      (st.addMemoryRelation relation).chunks = st.chunks := by
  rw [Store.addMemoryRelation]
  split
  · exact ⟨rfl, rfl, rfl, rfl⟩
  · exact ⟨rfl, rfl, rfl, rfl⟩

end Rows

/-! ### Reading -/

section Reading

variable [JsNumber N] {lib : MemoryLibrary N} {now : Int} {st : Store N}

theorem hydrateMemories_eq (items : List (MemoryItem N)) :
    (hydrateMemories lib now st items).items = st.items ∧
      (hydrateMemories lib now st items).sources = st.sources ∧
      (hydrateMemories lib now st items).actions = st.actions ∧
      (hydrateMemories lib now st items).relations = st.relations := by
  rw [hydrateMemories]
  generalize items.filter _ = missing
  induction missing generalizing st with
  | nil => exact ⟨rfl, rfl, rfl, rfl⟩
  | cons item missing ih => exact @ih (persistMemoryChunks lib now st item)

@[simp] theorem hydrateMemories_items (items : List (MemoryItem N)) :
    (hydrateMemories lib now st items).items = st.items :=
  (hydrateMemories_eq items).1

theorem untouched_hydrateMemories (items : List (MemoryItem N)) (id : JsText) :
    Untouched id st (hydrateMemories lib now st items) :=
  .of_eq (hydrateMemories_eq items).1 (hydrateMemories_eq items).2.1 (hydrateMemories_eq items).2.2.1 id

variable {id : JsText} {user : AuthenticatedUser} {context : MemoryContext}

/-- What `getMemory` finds. -/
theorem getMemory_cases (lib : MemoryLibrary N) (now : Int) (id : JsText) (user : AuthenticatedUser)
    (context : MemoryContext) (st : Store N) :
    (getMemory lib now id user context st = (st, none)) ∨
      ∃ item ∈ st.items, item.id = id ∧ item.orgId = user.orgId ∧
        (isVisible item user context = true ∨ user.role = .admin) ∧
        getMemory lib now id user context st = (hydrateMemories lib now st [item], some item) := by
  rw [getMemory]
  cases hfind : st.items.find? fun item => item.id = id ∧ item.orgId = user.orgId with
  | none => exact .inl rfl
  | some item =>
    obtain ⟨hid, horg⟩ : item.id = id ∧ item.orgId = user.orgId := by
      simpa using List.find?_some hfind
    by_cases hvisible : isVisible item user context = true ∨ user.role = .admin
    · exact .inr ⟨item, List.mem_of_find?_eq_some hfind, hid, horg, hvisible, if_pos hvisible⟩
    · exact .inl (if_neg hvisible)

theorem getMemory_eq : (getMemory lib now id user context st).1.items = st.items ∧
    (getMemory lib now id user context st).1.sources = st.sources ∧
    (getMemory lib now id user context st).1.actions = st.actions ∧
    (getMemory lib now id user context st).1.relations = st.relations := by
  rcases getMemory_cases lib now id user context st with h | ⟨item, -, -, -, -, h⟩
  · rw [h]
    exact ⟨rfl, rfl, rfl, rfl⟩
  · rw [h]
    exact hydrateMemories_eq [item]

theorem untouched_getMemory (id' : JsText) :
    Untouched id' st (getMemory lib now id user context st).1 :=
  .of_eq getMemory_eq.1 getMemory_eq.2.1 getMemory_eq.2.2.1 id'

/-- What is done with a memory that has been read. -/
theorem withMemory_cases (lib : MemoryLibrary N) (now : Int) (user : AuthenticatedUser) (id : JsText)
    (change : MemoryItem N → Store N → Fallibly N) (st : Store N) :
    withMemory lib now user id change st = (st, .ok none) ∨
      ∃ current ∈ st.items, current.id = id ∧ current.orgId = user.orgId ∧
        (isVisible current user .none = true ∨ user.role = .admin) ∧
        withMemory lib now user id change st =
          change current (hydrateMemories lib now st [current]) := by
  rw [withMemory]
  rcases getMemory_cases lib now id user .none st with h | ⟨current, hmem, hid, horg, hvisible, h⟩
  · rw [h]
    exact .inl rfl
  · rw [h]
    exact .inr ⟨current, hmem, hid, horg, hvisible, rfl⟩

theorem createMemoryRelations_eq (item : MemoryItem N) :
    (createMemoryRelations lib now st item).items = st.items ∧
      (createMemoryRelations lib now st item).sources = st.sources ∧
      (createMemoryRelations lib now st item).actions = st.actions ∧
      (createMemoryRelations lib now st item).chunks = st.chunks := by
  rw [createMemoryRelations]
  generalize List.take 300 _ = others
  induction others generalizing st with
  | nil => exact ⟨rfl, rfl, rfl, rfl⟩
  | cons other others ih =>
    rw [List.foldl_cons]
    cases hrel : relationOf lib item other with
    | none => exact ih
    | some relation =>
      obtain ⟨type, score, rationale⟩ := relation
      obtain ⟨hitems, hsources, hactions, hchunks⟩ := @ih (st.addMemoryRelation
        ⟨item.orgId, item.id, other.id, type, score, JsText.of rationale, now⟩)
      exact ⟨hitems.trans addMemoryRelation_eq.1, hsources.trans addMemoryRelation_eq.2.1,
        hactions.trans addMemoryRelation_eq.2.2.1, hchunks.trans addMemoryRelation_eq.2.2.2⟩

theorem untouched_createMemoryRelations (item : MemoryItem N) (id : JsText) :
    Untouched id st (createMemoryRelations lib now st item) :=
  .of_eq (createMemoryRelations_eq item).1 (createMemoryRelations_eq item).2.1
    (createMemoryRelations_eq item).2.2.1 id

omit [JsNumber N] in
theorem mem_pairs {l : List (MemoryItem N)} {p : MemoryItem N × MemoryItem N} (h : p ∈ pairs l) :
    p.1 ∈ l ∧ p.2 ∈ l := by
  induction l with
  | nil => cases h
  | cons a l ih =>
    rw [pairs, List.mem_append] at h
    rcases h with h | h
    · obtain ⟨b, hb, rfl⟩ := List.mem_map.mp h
      exact ⟨List.mem_cons_self, List.mem_cons_of_mem _ hb⟩
    · exact ⟨List.mem_cons_of_mem _ (ih h).1, List.mem_cons_of_mem _ (ih h).2⟩

/-- The memories of a list are rows that the user sees. -/
theorem of_mem_listedMemories {input : ListInput} {item : MemoryItem N}
    (h : item ∈ listedMemories lib user input st) :
    item ∈ st.items ∧ isVisible item user input.context = true := by
  have hvisible : item ∈ (selectMemories lib user input st).filter
      fun item => isVisible item user input.context := by
    rw [listedMemories] at h
    split at h
    · exact h
    · exact (List.mem_filter.mp h).1
  obtain ⟨hselect, hvisible⟩ := List.mem_filter.mp hvisible
  refine ⟨?_, hvisible⟩
  have hsort := List.mem_of_mem_take hselect
  exact (List.mem_filter.mp ((lib.order.perm _ _).mem_iff.mp hsort)).1

/-- The memory of the same content. -/
theorem existing_mem {input : CreateInput N} {item : MemoryItem N}
    (h : input.existing lib user st = some item) :
    item ∈ st.items ∧ item.status ≠ .forgotten := by
  have hmem := (lib.order.perm _ _).mem_iff.mp (List.mem_of_mem_head? h)
  obtain ⟨hitem, hfound⟩ := List.mem_filter.mp hmem
  rw [decide_eq_true_eq] at hfound
  exact ⟨hitem, hfound.2.2⟩

theorem of_mem_maintained {limit : Nat} {item : MemoryItem N}
    (h : item ∈ maintained lib user limit st) :
    item ∈ st.items ∧ isVisible item user .none = true := by
  rw [maintained] at h
  split at h
  · exact of_mem_listedMemories h
  · exact of_mem_listedMemories (List.mem_filter.mp h).1

end Reading

/-! ### A library -/

section Library

/-- The order of a stable sort. -/
def RowOrder.stable {α : Type} : RowOrder α where
  sort le l := l.insertionSort fun a b => le a b
  perm le l := List.perm_insertionSort _ l
  sorted le l htrans htotal := by
    have : Std.Total fun a b : α => le a b = true := ⟨fun a b => by simpa using htotal a b⟩
    have : IsTrans α fun a b => le a b = true := ⟨htrans⟩
    exact List.pairwise_insertionSort _ l

/-- Texts of ASCII characters; each is its own hash. -/
def asciiTexts : Texts where
  nfkc text := text
  toLowerCase text := text.map JsText.toLower
  localeCompare text text' := compare (text.map UInt16.toNat) (text'.map UInt16.toNat)
  sha256 text := text

/-- A library for memories that are not looked at later than they are written. -/
def promptLibrary : MemoryLibrary Int where
  toTexts := asciiTexts
  order := .stable
  halfPower _ := 1
  log1p _ := 0

def keeper : AuthenticatedUser := ⟨JsText.of "u", JsText.of "o", .editor⟩

/-- A memory of one user, of which no one says how good it is. -/
def plainInput (title : String) (content : Int) (expiresAt : Int) : CreateInput Int where
  type := .episodic
  scope := .user
  title := JsText.of title
  summary := JsText.of title
  content := .number content
  threadId := []
  workflowId := []
  serviceName := []
  tags := []
  confidence := none
  importance := none
  status := none
  pinned := false
  note := []
  expiresAt := expiresAt
  sources := []

end Library

end AgentService
