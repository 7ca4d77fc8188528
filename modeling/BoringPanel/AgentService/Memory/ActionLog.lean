import BoringPanel.AgentService.Memory.Upkeep
import BoringPanel.Lib.Runs
import Mathlib.Data.List.Chain

/-!
# The log of a memory

Each operation leaves the log of a memory alone, or adds one record that leads from the status the memory
has to its new one (`Logs`). Only a maintenance may act on a memory twice, from one snapshot of its status.
Where no maintenance does, the log is a chain to the current status, and holds each change of the status
once (`chained_of_run`).
-/

namespace AgentService

/-! ### Chains -/

/-- The change that an action records. -/
def MemoryAction.change (action : MemoryAction) : Option (MemoryStatus × MemoryStatus) :=
  if action.previousStatus = action.nextStatus then none
  else some (action.previousStatus, action.nextStatus)

/-- The change between the statuses before and after an operation. -/
def statusChange : Option MemoryStatus → Option MemoryStatus → List (MemoryStatus × MemoryStatus)
  | some previous, some next => if previous = next then [] else [(previous, next)]
  | _, _ => []

/-- A store, and the changes of status that the memories have gone through. -/
structure TrackedStore (N : Type) where
  store : Store N
  changes : JsText → List (MemoryStatus × MemoryStatus)

def TrackedStore.empty {N : Type} : TrackedStore N := ⟨Store.empty, fun _ => []⟩

variable {N : Type}

/-- The log of each memory is a chain that ends at its status, and has each of its changes once. -/
structure TrackedStore.Chained (s : TrackedStore N) : Prop where
  chain : ∀ id, (s.store.actionsOf id).IsChain fun a b => b.previousStatus = a.nextStatus
  last : ∀ id, (s.store.actionsOf id).getLast?.map MemoryAction.nextStatus = s.store.statusOf id
  once : ∀ id, (s.store.actionsOf id).filterMap MemoryAction.change = s.changes id

/-- The status and the log of a memory are as before. -/
structure SameLog (id : JsText) (st st' : Store N) : Prop where
  status : st'.statusOf id = st.statusOf id
  actions : st'.actionsOf id = st.actionsOf id

/-- What an operation does to the log of a memory. -/
inductive Logs (id : JsText) (st st' : Store N) : Prop
  | same (h : SameLog id st st')
  | acted (action : MemoryAction) (hprevious : st.statusOf id = some action.previousStatus)
      (hnext : st'.statusOf id = some action.nextStatus)
      (hactions : st'.actionsOf id = st.actionsOf id ++ [action])
  | created (action : MemoryAction) (hnone : st.statusOf id = none)
      (hkept : action.previousStatus = action.nextStatus)
      (hnext : st'.statusOf id = some action.nextStatus)
      (hactions : st'.actionsOf id = st.actionsOf id ++ [action])

/-- Nothing is known of memories that are not there, and the log of each memory goes on. -/
structure LogsAll (st st' : Store N) : Prop where
  unique : st'.UniqueIds
  logs : ∀ id, Logs id st st'

section Chains

variable {st st' st'' : Store N} {id id' : JsText}

theorem SameLog.refl (id : JsText) (st : Store N) : SameLog id st st := ⟨rfl, rfl⟩

theorem SameLog.trans (h : SameLog id st st') (h' : SameLog id st' st'') : SameLog id st st'' :=
  ⟨h'.status.trans h.status, h'.actions.trans h.actions⟩

theorem Untouched.sameLog (h : Untouched id st st') : SameLog id st st' := by
  refine ⟨?_, h.actions⟩
  rw [Store.statusOf, h.row, Store.statusOf]

theorem Untouched.logs (h : Untouched id st st') : Logs id st st' := .same h.sameLog

theorem Logs.congr_left (h : Logs id st' st'') (hsame : SameLog id st st') : Logs id st st'' := by
  cases h with
  | same h => exact .same (hsame.trans h)
  | acted action hprevious hnext hactions =>
    exact .acted action (hsame.status ▸ hprevious) hnext (hsame.actions ▸ hactions)
  | created action hnone hkept hnext hactions =>
    exact .created action (hsame.status ▸ hnone) hkept hnext (hsame.actions ▸ hactions)

theorem Logs.congr_right (h : Logs id st st') (hsame : SameLog id st' st'') : Logs id st st'' := by
  cases h with
  | same h => exact .same (h.trans hsame)
  | acted action hprevious hnext hactions =>
    exact .acted action hprevious (hsame.status.trans hnext) (hsame.actions.trans hactions)
  | created action hnone hkept hnext hactions =>
    exact .created action hnone hkept (hsame.status.trans hnext) (hsame.actions.trans hactions)

/-- Chunks do not matter. -/
theorem Logs.with_chunks (h : Logs id st st') (chunks : List MemoryChunk) :
    Logs id st { st' with chunks := chunks } :=
  h.congr_right ⟨rfl, rfl⟩

/-- One more record, from the status to the next one. -/
theorem chained_append {actions : List MemoryAction} {action : MemoryAction}
    {status : Option MemoryStatus}
    (hchain : actions.IsChain fun a b => b.previousStatus = a.nextStatus)
    (hlast : actions.getLast?.map MemoryAction.nextStatus = status)
    (h : ∀ s ∈ status, action.previousStatus = s) :
    (actions ++ [action]).IsChain fun a b => b.previousStatus = a.nextStatus := by
  refine hchain.append (List.isChain_singleton _) ?_
  intro a ha b hb
  obtain rfl := Option.some.inj hb
  refine h a.nextStatus ?_
  rw [← hlast, Option.mem_def, Option.map_eq_some_iff]
  exact ⟨a, ha, rfl⟩

/-- What a step that logs everything keeps. -/
theorem chained_of_logs {s : TrackedStore N} (h : s.Chained) (hlogs : ∀ id, Logs id s.store st') :
    (⟨st', fun id => s.changes id ++ statusChange (s.store.statusOf id) (st'.statusOf id)⟩ :
      TrackedStore N).Chained := by
  refine ⟨fun id => ?_, fun id => ?_, fun id => ?_⟩
  · show (st'.actionsOf id).IsChain _
    cases hlogs id with
    | same hsame =>
      rw [hsame.actions]
      exact h.chain id
    | acted action hprevious hnext hactions =>
      rw [hactions]
      refine chained_append (h.chain id) (h.last id) fun status hstatus => ?_
      exact Option.some.inj (hprevious.symm.trans hstatus)
    | created action hnone hkept hnext hactions =>
      rw [hactions]
      refine chained_append (h.chain id) (h.last id) fun status hstatus => ?_
      rw [hnone] at hstatus
      cases hstatus
  · show (st'.actionsOf id).getLast?.map _ = st'.statusOf id
    cases hlogs id with
    | same hsame => rw [hsame.actions, hsame.status, h.last id]
    | acted action hprevious hnext hactions =>
      rw [hactions, hnext, List.getLast?_concat]
      rfl
    | created action hnone hkept hnext hactions =>
      rw [hactions, hnext, List.getLast?_concat]
      rfl
  · show (st'.actionsOf id).filterMap _ =
      s.changes id ++ statusChange (s.store.statusOf id) (st'.statusOf id)
    cases hlogs id with
    | same hsame =>
      rw [hsame.actions, hsame.status, h.once id]
      cases s.store.statusOf id with
      | none => exact (List.append_nil _).symm
      | some status => simp [statusChange]
    | acted action hprevious hnext hactions =>
      rw [hactions, hprevious, hnext, List.filterMap_append, h.once id]
      by_cases hsame : action.previousStatus = action.nextStatus
      · simp [statusChange, MemoryAction.change, hsame]
      · simp [statusChange, MemoryAction.change, hsame]
    | created action hnone hkept hnext hactions =>
      rw [hactions, hnone, hnext, List.filterMap_append, h.once id]
      simp [statusChange, MemoryAction.change, hkept]

end Chains

/-! ### Operations -/

section Operations

variable {st st' : Store N} {id : JsText} {now : Int} {user : AuthenticatedUser} {action : String}
  {f : MemoryItem N → MemoryItem N} {item : MemoryItem N} {previous next : MemoryStatus}
  {detail : JsText}

theorem statusOf_of_mem (hunique : st.UniqueIds) (h : item ∈ st.items) :
    st.statusOf item.id = some item.status := by
  rw [Store.statusOf, row?_of_mem hunique h]
  rfl

theorem uniqueIds_congr (hunique : st.UniqueIds) (h : st'.items = st.items) : st'.UniqueIds := by
  rw [Store.UniqueIds, h]
  exact hunique

theorem logsAll_refl (hunique : st.UniqueIds) : LogsAll st st :=
  ⟨hunique, fun id => (Untouched.refl id st).logs⟩

/-- An update of a row, and the record of it. -/
theorem logs_update (hf : ∀ item, (f item).id = item.id) (hstatus : ∀ item, (f item).status = next)
    (hrow : st.statusOf id = some previous) (id' : JsText) :
    Logs id' st ((st.updateItem id f).addMemoryAction now id user action previous next detail) := by
  by_cases hid : id' = id
  · subst hid
    refine .acted ⟨id', user.orgId, user.id, action, previous, next, detail, now⟩ hrow ?_
      actionsOf_addMemoryAction
    show ((st.updateItem id' f).row? id').map MemoryItem.status = some next
    obtain ⟨row, hrow, -⟩ := Option.map_eq_some_iff.mp hrow
    rw [row?_updateItem_self hf, hrow]
    exact congrArg some (hstatus row)
  · exact ((untouched_updateItem hf hid).trans (untouched_addMemoryAction hid)).logs

/-- An operation that keeps all statuses and all logs. -/
structure KeepsLogs (st st' : Store N) : Prop where
  unique : st'.UniqueIds
  same : ∀ id, SameLog id st st'

theorem KeepsLogs.refl (hunique : st.UniqueIds) : KeepsLogs st st :=
  ⟨hunique, fun id => .refl id st⟩

theorem KeepsLogs.logsAll (h : KeepsLogs st st') : LogsAll st st' :=
  ⟨h.unique, fun id => .same (h.same id)⟩

theorem KeepsLogs.trans {st'' : Store N} (h : KeepsLogs st st') (h' : KeepsLogs st' st'') :
    KeepsLogs st st'' :=
  ⟨h'.unique, fun id => (h.same id).trans (h'.same id)⟩

theorem keepsLogs_updateItem (hunique : st.UniqueIds) (hf : ∀ item, (f item).id = item.id)
    (hstatus : ∀ item, (f item).status = item.status) : KeepsLogs st (st.updateItem id f) := by
  refine ⟨uniqueIds_updateItem hf hunique, fun id' => ?_⟩
  by_cases hid : id' = id
  · subst hid
    refine ⟨?_, rfl⟩
    rw [Store.statusOf, row?_updateItem_self hf, Store.statusOf]
    cases st.row? id' with
    | none => rfl
    | some row => exact congrArg some (hstatus row)
  · exact (untouched_updateItem hf hid).sameLog

variable [JsNumber N] {lib : MemoryLibrary N}

theorem logsAll_getMemory {st₀ : Store N} (h : LogsAll st₀ st) (id : JsText)
    (user : AuthenticatedUser) (context : MemoryContext) :
    LogsAll st₀ (getMemory lib now id user context st).1 :=
  ⟨uniqueIds_congr h.unique getMemory_eq.1, fun id' => (h.logs id').congr_right (untouched_getMemory id').sameLog⟩

theorem logsAll_reinforceMemory (hunique : st.UniqueIds) (hitem : item ∈ st.items)
    (input : CreateInput N) : LogsAll st (reinforceMemory lib now user input item st).1 := by
  have hf : ∀ row, (input.reinforce lib now item row).id = row.id := fun _ => rfl
  refine logsAll_getMemory ⟨?_, fun id => ?_⟩ _ _ _
  · exact uniqueIds_congr (uniqueIds_updateItem hf hunique) addMemorySources_eq.1
  · by_cases hid : id = item.id
    · subst hid
      refine .acted ⟨item.id, user.orgId, user.id, "reinforced", item.status, item.status,
        JsText.of "相同内容再次出现，已强化现有记忆。", now⟩ (statusOf_of_mem hunique hitem) ?_ ?_
      · show Option.map MemoryItem.status ((addMemorySources now
          (st.updateItem item.id (input.reinforce lib now item)) item.id input.sources).row? item.id) = _
        rw [Store.row?, addMemorySources_eq.1, ← Store.row?, row?_updateItem_self hf,
          row?_of_mem hunique hitem]
        rfl
      · rw [actionsOf_addMemoryAction, Store.actionsOf, addMemorySources_eq.2.1]
        rfl
    · exact ((untouched_updateItem hf hid).trans ((untouched_addMemorySources hid).trans
        (untouched_addMemoryAction hid))).logs

theorem logsAll_completeMemory (hunique : st.UniqueIds) {input : CreateInput N}
    (hnone : st.row? id = none) :
    LogsAll st (completeMemory lib now user input id
      { st with items := st.items ++ [input.row lib now user id] }).1 := by
  let row := input.row lib now user id
  let inserted : Store N := { st with items := st.items ++ [row] }
  let word : String := if (input.injection lib).detected then "auto_suspended" else "created"
  have hlogged : LogsAll st ((addMemorySources now inserted id input.sources).addMemoryAction now id user
      word (input.storedStatus lib) (input.storedStatus lib) (input.createdDetail lib)) := by
    refine ⟨?_, fun id' => ?_⟩
    · exact uniqueIds_congr (uniqueIds_insert row hunique hnone) addMemorySources_eq.1
    · by_cases hid : id' = id
      · subst hid
        refine .created ⟨id', user.orgId, user.id, word, input.storedStatus lib, input.storedStatus lib,
          input.createdDetail lib, now⟩ ?_ rfl ?_ ?_
        · rw [Store.statusOf, hnone]
          rfl
        · show Option.map MemoryItem.status ((addMemorySources now inserted id' input.sources).row? id') = _
          rw [Store.row?, addMemorySources_eq.1]
          exact congrArg _ (row?_insert_self row hnone)
        · rw [actionsOf_addMemoryAction, Store.actionsOf, addMemorySources_eq.2.1]
          rfl
      · have hinsert : Untouched id' st inserted := ⟨row?_insert row hid, rfl, rfl⟩
        exact (hinsert.trans ((untouched_addMemorySources hid).trans
          (untouched_addMemoryAction hid))).logs
  have hread : LogsAll st (getMemory lib now id user input.context _).1 :=
    logsAll_getMemory hlogged id user input.context
  rw [completeMemory]
  split
  rename_i st' created hget
  rw [show getMemory lib now id user input.context _ = (st', created) from hget] at hread
  cases created with
  | none => exact hread
  | some created =>
    refine logsAll_getMemory ⟨?_, fun id' => ?_⟩ _ _ _
    · exact uniqueIds_congr hread.unique (createMemoryRelations_eq created).1
    · exact (hread.logs id').congr_right (untouched_createMemoryRelations created id').sameLog

theorem logsAll_createMemory (hunique : st.UniqueIds) (input : CreateInput N) :
    LogsAll st (createMemory lib now user id input st).1 := by
  rw [createMemory]
  split
  · exact logsAll_refl hunique
  · split
    · rename_i item hexisting
      refine logsAll_reinforceMemory hunique ?_ input
      have hmem := (lib.order.perm _ _).mem_iff.mp (List.mem_of_mem_head? hexisting)
      exact (List.mem_filter.mp hmem).1
    · split
      · exact logsAll_refl hunique
      · rename_i hfresh
        refine logsAll_completeMemory hunique (row?_eq_none_iff.mpr fun item hitem hid => hfresh ?_)
        rw [List.any_eq_true]
        exact ⟨item, hitem, decide_eq_true hid⟩

/-- An operation that reads a memory first. -/
theorem logsAll_withMemory (hunique : st.UniqueIds) {change : MemoryItem N → Store N → Fallibly N}
    (hchange : ∀ st', st'.UniqueIds → ∀ current ∈ st'.items, current.id = id →
      LogsAll st' (change current st').1) : LogsAll st (withMemory lib now user id change st).1 := by
  rcases withMemory_cases lib now user id change st with h | ⟨current, hmem, hid, -, -, h⟩
  · rw [h]
    exact logsAll_refl hunique
  · rw [h]
    have hread : (hydrateMemories lib now st [current]).UniqueIds :=
      uniqueIds_congr hunique (hydrateMemories_items [current])
    obtain ⟨hunique', hlogs⟩ := hchange _ hread current (by rwa [hydrateMemories_items]) hid
    exact ⟨hunique', fun id' => (hlogs id').congr_left (untouched_hydrateMemories [current] id').sameLog⟩

theorem logsAll_updateMemory (hunique : st.UniqueIds) (input : UpdateInput) :
    LogsAll st (updateMemory lib now user id input st).1 := by
  refine logsAll_withMemory hunique fun st hunique current hmem hid => ?_
  dsimp only
  split
  · exact logsAll_refl hunique
  · have hf : ∀ row, (input.apply now current row).id = row.id := fun _ => rfl
    have hrow : st.statusOf id = some current.status := hid ▸ statusOf_of_mem hunique hmem
    refine logsAll_getMemory ⟨?_, fun id' => ?_⟩ _ _ _
    · split
      · exact uniqueIds_updateItem hf hunique
      · exact uniqueIds_updateItem hf hunique
    · split
      · exact (logs_update hf (fun _ => rfl) hrow id').with_chunks _
      · exact logs_update hf (fun _ => rfl) hrow id'

theorem logsAll_forgetMemory (hunique : st.UniqueIds) :
    LogsAll st (forgetMemory lib now user id st).1 := by
  refine logsAll_withMemory hunique fun st hunique current hmem hid => ?_
  dsimp only
  split
  · exact logsAll_refl hunique
  · have hf : ∀ row : MemoryItem N, (row.forget lib now).id = row.id := fun _ => rfl
    have hrow : st.statusOf id = some current.status := hid ▸ statusOf_of_mem hunique hmem
    have hlogged : LogsAll st (((st.updateItem id (MemoryItem.forget lib now)).deleteChunks
        id).addMemoryAction now id user "forgotten" current.status .forgotten forgottenDetail) :=
      ⟨uniqueIds_updateItem hf hunique, fun id' =>
        (logs_update hf (fun _ => rfl) hrow id').with_chunks _⟩
    exact logsAll_getMemory hlogged _ _ _

theorem keepsLogs_hydrateMemories (hunique : st.UniqueIds) (items : List (MemoryItem N)) :
    KeepsLogs st (hydrateMemories lib now st items) :=
  ⟨uniqueIds_congr hunique (hydrateMemories_items items), fun id =>
    (untouched_hydrateMemories items id).sameLog⟩

theorem keepsLogs_retrieveMemories (hunique : st.UniqueIds) (context : MemoryContext)
    (includeInactive : Bool) (ranking : Ranking N) :
    KeepsLogs st (retrieveMemories lib now user context includeInactive ranking st).1 := by
  have haccess : ∀ (memories : List (MemoryItem N)) (st : Store N), st.UniqueIds → KeepsLogs st
      (memories.foldl (fun st memory => st.updateItem memory.id (MemoryItem.access now)) st) := by
    intro memories
    induction memories with
    | nil => exact fun st hunique => .refl hunique
    | cons memory memories ih =>
      intro st hunique
      have hone : KeepsLogs st (st.updateItem memory.id (MemoryItem.access now)) :=
        keepsLogs_updateItem hunique (fun _ => rfl) fun _ => rfl
      exact hone.trans (ih _ hone.unique)
  have hlist : KeepsLogs st (hydrateMemories lib now st
      (listedMemories lib user (.all context includeInactive 800) st)) :=
    keepsLogs_hydrateMemories hunique _
  exact hlist.trans (haccess _ _ hlist.unique)

end Operations

/-! ### Maintenance -/

/-- The memory whose status a step sets. -/
def Upkeep.target : Upkeep N → Option (MemoryItem N)
  | .expire item => some item
  | .archive item => some item
  | .merge _ right => some right
  | .suspend weaker => some weaker
  | _ => none

section Due

variable [JsNumber N] (lib : MemoryLibrary N) (now : Int)

/-- A memory that expires, or is archived because of its vitality. -/
def dueItem (item : MemoryItem N) : Bool :=
  item.status ≠ .forgotten ∧ (isExpired now item ∨ fades lib now item)

/-- The memory of a pair that is merged or suspended. -/
def duePair (pair : MemoryItem N × MemoryItem N) : Option (MemoryItem N) :=
  if isMerged lib pair.1 pair.2 then some pair.2
  else if isConflict lib pair.1 pair.2 ∧ isLoose (weakerOf pair.1 pair.2) then
    some (weakerOf pair.1 pair.2)
  else none

/-- No memory is due twice. -/
def DueOnce (items : List (MemoryItem N)) : Prop :=
  ((items.filter (dueItem lib now) ++ (onlinePairs items).filterMap (duePair lib)).map
    MemoryItem.id).Nodup

/-- The condition on a call: in a maintenance no memory is due twice. -/
def ActsOnce (s : TrackedStore N) (a : MemoryCall N × Int) : Prop :=
  match a.1 with
  | .maintain user limit => DueOnce lib a.2 (maintained lib user limit s.store)
  | _ => True

/-- A call, whose changes of status are recorded. -/
def TrackedStep (s : TrackedStore N) (a : MemoryCall N × Int) (s' : TrackedStore N) : Prop :=
  MemoryStep lib s.store a s'.store ∧
    s'.changes = fun id => s.changes id ++ statusChange (s.store.statusOf id) (s'.store.statusOf id)

/-- What a call leads to. -/
def track (s : TrackedStore N) (a : MemoryCall N × Int) : TrackedStore N :=
  let store := perform lib a.2 s.store a.1
  ⟨store, fun id => s.changes id ++ statusChange (s.store.statusOf id) (store.statusOf id)⟩

end Due

section Maintenance

variable {st st' : Store N} {now : Int} {user : AuthenticatedUser} {f : MemoryItem N → MemoryItem N}
  {u : Upkeep N} {item : MemoryItem N} {previous next : MemoryStatus} {action : String}
  {detail : JsText} {id : JsText}

/-- A step that sets no status. -/
theorem keepsLogs_run (hunique : st.UniqueIds) (h : u.target = none) :
    KeepsLogs st (Upkeep.run now user st u) := by
  cases u with
  | decay item vitality => exact keepsLogs_updateItem hunique (fun _ => rfl) fun _ => rfl
  | conflict left right score =>
    exact ⟨uniqueIds_congr hunique addMemoryRelation_eq.1, fun id => (Untouched.of_eq
      addMemoryRelation_eq.1 addMemoryRelation_eq.2.1 addMemoryRelation_eq.2.2.1 id).sameLog⟩
  | expire item => cases h
  | archive item => cases h
  | merge left right => cases h
  | suspend weaker => cases h

/-- What a step does that sets the status of a memory. -/
structure RunsOn (id : JsText) (st st' : Store N) : Prop where
  unique : st'.UniqueIds
  logs : Logs id st st'
  others : ∀ id', id' ≠ id → SameLog id' st st'

theorem runsOn_update (hunique : st.UniqueIds) (hf : ∀ item, (f item).id = item.id)
    (hstatus : ∀ item, (f item).status = next) (hrow : st.statusOf id = some previous) :
    RunsOn id st ((st.updateItem id f).addMemoryAction now id user action previous next detail) :=
  ⟨uniqueIds_updateItem hf hunique, logs_update hf hstatus hrow id, fun _ hid =>
    ((untouched_updateItem hf hid).trans (untouched_addMemoryAction hid)).sameLog⟩

theorem runsOn_run (hunique : st.UniqueIds) (h : u.target = some item)
    (hrow : st.statusOf item.id = some item.status) :
    RunsOn item.id st (Upkeep.run now user st u) := by
  cases u with
  | expire i =>
    obtain rfl := Option.some.inj h
    exact runsOn_update hunique (fun _ => rfl) (fun _ => rfl) hrow
  | archive i =>
    obtain rfl := Option.some.inj h
    exact runsOn_update hunique (fun _ => rfl) (fun _ => rfl) hrow
  | suspend i =>
    obtain rfl := Option.some.inj h
    exact runsOn_update hunique (fun _ => rfl) (fun _ => rfl) hrow
  | merge left right =>
    obtain rfl := Option.some.inj h
    -- the memory that is kept has its status
    have hleft : KeepsLogs st (st.updateItem left.id fun row =>
        { row with
          reinforcementCount := row.reinforcementCount + 1
          vitality := min 100 (row.vitality + 5)
          lastReinforcedAt := now
          updatedAt := now }) :=
      keepsLogs_updateItem hunique (fun _ => rfl) fun _ => rfl
    have hright : RunsOn right.id _ (Upkeep.run now user st (.merge left right)) :=
      runsOn_update hleft.unique (fun _ => rfl) (fun _ => rfl) ((hleft.same right.id).status.trans hrow)
    exact ⟨hright.unique, hright.logs.congr_left (hleft.same _), fun id hid =>
      (hleft.same id).trans (hright.others id hid)⟩
  | decay i vitality => cases h
  | conflict left right score => cases h

/-- Steps that set the statuses of different memories. -/
theorem logsAll_foldl_run (steps : List (Upkeep N)) (hunique : st.UniqueIds)
    (hrows : ∀ item ∈ steps.filterMap Upkeep.target, st.statusOf item.id = some item.status)
    (hnodup : ((steps.filterMap Upkeep.target).map MemoryItem.id).Nodup) :
    LogsAll st (steps.foldl (Upkeep.run now user) st) ∧
      ∀ id, id ∉ (steps.filterMap Upkeep.target).map MemoryItem.id →
        SameLog id st (steps.foldl (Upkeep.run now user) st) := by
  induction steps generalizing st with
  | nil => exact ⟨(KeepsLogs.refl hunique).logsAll, fun id _ => .refl id st⟩
  | cons u steps ih =>
    rw [List.foldl_cons]
    cases htarget : u.target with
    | none =>
      rw [List.filterMap_cons_none htarget] at hrows hnodup ⊢
      have hu : KeepsLogs st (Upkeep.run now user st u) := keepsLogs_run hunique htarget
      obtain ⟨hall, hothers⟩ := ih hu.unique
        (fun item hitem => (hu.same item.id).status.trans (hrows item hitem)) hnodup
      exact ⟨⟨hall.unique, fun id => (hall.logs id).congr_left (hu.same id)⟩, fun id hid =>
        (hu.same id).trans (hothers id hid)⟩
    | some item =>
      rw [List.filterMap_cons_some htarget] at hrows hnodup ⊢
      rw [List.map_cons] at hnodup ⊢
      obtain ⟨hnot, hnodup⟩ := List.nodup_cons.mp hnodup
      have hu : RunsOn item.id st (Upkeep.run now user st u) :=
        runsOn_run hunique htarget (hrows item List.mem_cons_self)
      obtain ⟨hall, hothers⟩ := ih hu.unique (fun other hother => by
        -- the memory is not set again
        have hne : other.id ≠ item.id := fun heq => hnot (heq ▸ List.mem_map_of_mem hother)
        exact (hu.others other.id hne).status.trans
          (hrows other (List.mem_cons_of_mem _ hother))) hnodup
      refine ⟨⟨hall.unique, fun id => ?_⟩, fun id hid => ?_⟩
      · by_cases heq : id = item.id
        · subst heq
          exact hu.logs.congr_right (hothers item.id hnot)
        · exact (hall.logs id).congr_left (hu.others id heq)
      · obtain ⟨hne, hid⟩ := not_or.mp (mt List.mem_cons.mpr hid)
        exact (hu.others id hne).trans (hothers id hid)

variable [JsNumber N] {lib : MemoryLibrary N}

omit [JsNumber N] in
theorem targets_itemUpkeep (item : MemoryItem N) :
    (itemUpkeep lib now item).filterMap Upkeep.target =
      if dueItem lib now item then [item] else [] := by
  rw [itemUpkeep, dueItem]
  by_cases hforgotten : item.status = .forgotten
  · simp [hforgotten]
  · by_cases hexpired : isExpired now item = true
    · simp [hforgotten, hexpired, Upkeep.target]
    · by_cases hloose : isLoose item = true
      · -- a change of the vitality sets no status
        have hdecay : (if currentVitality lib now item ≠ item.vitality then
            [Upkeep.decay item (currentVitality lib now item)] else []).filterMap Upkeep.target = [] := by
          split
          · rfl
          · rfl
        rw [if_neg hforgotten, if_neg hexpired, if_neg (by simp [hloose]), List.filterMap_append, hdecay]
        by_cases hfades : fades lib now item = true
        · simp [hforgotten, hfades, Upkeep.target]
        · simp [hexpired, hfades]
      · have hfades : ¬ fades lib now item = true := by simp [fades, hloose]
        simp [hforgotten, hexpired, hloose, hfades]

theorem targets_pairUpkeep (pair : MemoryItem N × MemoryItem N) :
    (pairUpkeep lib pair).filterMap Upkeep.target = (duePair lib pair).toList := by
  rw [pairUpkeep, duePair]
  by_cases hmerged : isMerged lib pair.1 pair.2 = true
  · simp [hmerged, Upkeep.target]
  · by_cases hconflict : isConflict lib pair.1 pair.2 = true
    · by_cases hloose : isLoose (weakerOf pair.1 pair.2) = true
      · rw [if_neg hmerged, if_pos hconflict, if_pos hloose, if_neg hmerged, if_pos ⟨hconflict, hloose⟩]
        rfl
      · rw [if_neg hmerged, if_pos hconflict, if_neg hloose, if_neg hmerged,
          if_neg fun h => hloose h.2]
        rfl
    · simp [hmerged, hconflict]

/-- The memories whose statuses the first loop sets. -/
theorem targets_items (items : List (MemoryItem N)) :
    (items.flatMap (itemUpkeep lib now)).filterMap Upkeep.target = items.filter (dueItem lib now) := by
  induction items with
  | nil => rfl
  | cons item items ih =>
    rw [List.flatMap_cons, List.filterMap_append, targets_itemUpkeep, ih, List.filter_cons]
    split
    · rfl
    · rfl

/-- The memories whose statuses the second loop sets at some pairs. -/
theorem targets_pairs (l : List (MemoryItem N × MemoryItem N)) :
    (l.flatMap (pairUpkeep lib)).filterMap Upkeep.target = l.filterMap (duePair lib) := by
  induction l with
  | nil => rfl
  | cons pair l ih =>
    rw [List.flatMap_cons, List.filterMap_append, targets_pairUpkeep, ih, List.filterMap_cons]
    cases duePair lib pair with
    | none => rfl
    | some item => rfl

theorem targets_upkeep (items : List (MemoryItem N)) :
    (upkeep lib now items).filterMap Upkeep.target =
      items.filter (dueItem lib now) ++ (onlinePairs items).filterMap (duePair lib) := by
  rw [upkeep, List.filterMap_append, targets_items, targets_pairs]

/-- What a maintenance acts on was among its memories. -/
theorem mem_of_due {items : List (MemoryItem N)}
    (h : item ∈ items.filter (dueItem lib now) ++ (onlinePairs items).filterMap (duePair lib)) :
    item ∈ items := by
  rcases List.mem_append.mp h with h | h
  · exact (List.mem_filter.mp h).1
  · obtain ⟨pair, hpair, hdue⟩ := List.mem_filterMap.mp h
    rw [duePair] at hdue
    split at hdue
    · obtain rfl := Option.some.inj hdue
      exact (mem_of_mem_onlinePairs hpair).2
    split at hdue
    · obtain rfl := Option.some.inj hdue
      exact weakerOf_mem hpair
    · cases hdue

theorem logsAll_maintainMemories (hunique : st.UniqueIds) {limit : Nat}
    (h : DueOnce lib now (maintained lib user limit st)) :
    LogsAll st (maintainMemories lib now user limit st).1 := by
  have hlist : KeepsLogs st (hydrateMemories lib now st
      (listedMemories lib user (.all .none true (min limit 500)) st)) :=
    keepsLogs_hydrateMemories hunique _
  have hrows : ∀ item ∈ (upkeep lib now (maintained lib user limit st)).filterMap Upkeep.target,
      st.statusOf item.id = some item.status := by
    intro item hitem
    rw [targets_upkeep] at hitem
    exact statusOf_of_mem hunique (of_mem_maintained (mem_of_due hitem)).1
  have hnodup : (((upkeep lib now (maintained lib user limit st)).filterMap Upkeep.target).map
      MemoryItem.id).Nodup := by
    rw [targets_upkeep]
    exact h
  have hall : LogsAll _ (maintainMemories lib now user limit st).1 :=
    (logsAll_foldl_run _ hlist.unique
      (fun item hitem => (hlist.same item.id).status.trans (hrows item hitem)) hnodup).1
  exact ⟨hall.unique, fun id => (hall.logs id).congr_left (hlist.same id)⟩

/-! ### Runs -/

theorem logsAll_perform (hunique : st.UniqueIds) {changes : JsText → List (MemoryStatus × MemoryStatus)}
    {a : MemoryCall N × Int} (h : ActsOnce lib ⟨st, changes⟩ a) :
    LogsAll st (perform lib a.2 st a.1) := by
  obtain ⟨call, now⟩ := a
  cases call with
  | create user id input => exact logsAll_createMemory hunique input
  | update user id input => exact logsAll_updateMemory hunique input
  | forget user id => exact logsAll_forgetMemory hunique
  | retrieve user context includeInactive ranking =>
    exact (keepsLogs_retrieveMemories hunique context includeInactive ranking).logsAll
  | maintain user limit => exact logsAll_maintainMemories hunique h
  | list user input => exact (keepsLogs_hydrateMemories hunique _).logsAll
  | get user id context => exact logsAll_getMemory (logsAll_refl hunique) id user context

/-- What every call keeps. -/
structure TrackedStore.Sound (s : TrackedStore N) : Prop where
  unique : s.store.UniqueIds
  chained : s.Chained

omit [JsNumber N] in
theorem sound_empty : (TrackedStore.empty : TrackedStore N).Sound :=
  ⟨List.nodup_nil, fun _ => .nil, fun _ => rfl, fun _ => rfl⟩

theorem TrackedStore.Sound.step {s s' : TrackedStore N} {a : MemoryCall N × Int} (h : s.Sound)
    (hstep : TrackedStep lib s a s') (hguard : ActsOnce lib s a) : s'.Sound := by
  obtain ⟨hstore, hchanges⟩ := hstep
  have hall : LogsAll s.store s'.store := by
    rw [hstore]
    exact logsAll_perform h.unique hguard
  have hnext := chained_of_logs h.chained hall.logs
  rw [← hchanges] at hnext
  exact ⟨hall.unique, hnext⟩

/-- **The log of each memory is a chain to its status**, if no maintenance acts twice on a memory. -/
theorem chained_of_run {as : List (MemoryCall N × Int)} {s : TrackedStore N}
    (h : Run (Guarded (TrackedStep lib) (ActsOnce lib)) .empty as s) : s.Chained := by
  have hsound : s.Sound := h.invariant sound_empty fun _ _ _ hs hstep => hs.step hstep.1 hstep.2
  exact hsound.chained

end Maintenance

/-! ### Two memories of the same text -/

section Examples

/-- A memory is created and forgotten. -/
def createAndForget : List (MemoryCall Int × Int) :=
  [(.create keeper (JsText.of "1") (plainInput "db down" 1 0), 1), (.forget keeper (JsText.of "1"), 1)]

/-- The second of two similar memories has expired when they are maintained. -/
def expireAndMerge : List (MemoryCall Int × Int) :=
  [(.create keeper (JsText.of "1") (plainInput "db down" 1 0), 1),
    (.create keeper (JsText.of "2") (plainInput "db down" 2 1), 1), (.maintain keeper 500, 1)]

theorem trackedStep_track (s : TrackedStore Int) (a : MemoryCall Int × Int) :
    TrackedStep promptLibrary s a (track promptLibrary s a) :=
  ⟨Eq.refl _, rfl⟩

theorem chained_of_run_createAndForget :
    (createAndForget.foldl (track promptLibrary) .empty).Chained :=
  chained_of_run ((Run.nil.snoc ⟨trackedStep_track _ _, trivial⟩).snoc ⟨trackedStep_track _ _, trivial⟩)

/-- The merge starts from the status that the expired memory no longer has. -/
theorem not_chained_expireAndMerge : ¬ ∀ (as : List (MemoryCall Int × Int)) (s : TrackedStore Int),
    Run (TrackedStep promptLibrary) .empty as s → s.Chained := by
  intro h
  have hrun : Run (TrackedStep promptLibrary) .empty expireAndMerge
      (expireAndMerge.foldl (track promptLibrary) .empty) :=
    ((Run.nil.snoc (trackedStep_track _ _)).snoc (trackedStep_track _ _)).snoc (trackedStep_track _ _)
  have hchain := (h _ _ hrun).chain (JsText.of "2")
  revert hchain
  decide +kernel

end Examples

end AgentService
