import BoringPanel.AgentService.Memory.ActionLog
import Mathlib.Data.Finset.Card

/-!
# Merged memories

`maintainMemories` merges similar memories and suspends the weaker of two contradictory ones, in one loop
over the pairs of the memories that were online before. It does not look at what the same maintenance has
done with them before. So a memory can be merged twice, merged and suspended, merged into one that has
just expired, or suspended because of one that is no longer there. `mergesKeep_iff` says when none of it
happens.
-/

namespace AgentService

variable {N : Type}

/-! ### Pairs -/

section Pairs

variable {α : Type} {l before after : List α} {a b : α}

theorem sublist_of_mem_pairs (h : (a, b) ∈ pairs l) : [a, b].Sublist l := by
  induction l with
  | nil => cases h
  | cons c l ih =>
    rw [pairs, List.mem_append] at h
    rcases h with h | h
    · obtain ⟨d, hd, heq⟩ := List.mem_map.mp h
      obtain ⟨rfl, rfl⟩ := Prod.mk.inj heq
      exact (List.singleton_sublist.mpr hd).cons_cons _
    · exact (ih h).cons c

/-- The first of a pair stands before the second. -/
theorem mem_before_of_mem_pairs (hnodup : (before ++ a :: after).Nodup)
    (h : (b, a) ∈ pairs (before ++ a :: after)) : b ∈ before := by
  obtain ⟨l₁, l₂, heq, hl₁, hl₂⟩ := List.sublist_append_iff.mp (sublist_of_mem_pairs h)
  have hnot : a ∉ after := (List.nodup_cons.mp (List.nodup_append.mp hnodup).2.1).1
  match l₁, l₂, heq with
  | [], _, rfl =>
    -- nothing but `a` could be the first of the pair
    cases hl₂ with
    | cons _ h => exact absurd (h.subset (List.mem_cons_of_mem _ List.mem_cons_self)) hnot
    | cons_cons _ h => exact absurd (h.subset List.mem_cons_self) hnot
  | c :: l₁, _, heq =>
    obtain ⟨rfl, -⟩ := List.cons.inj heq
    exact hl₁.subset List.mem_cons_self

/-- What holds of each element, if it holds of those that it is the second of a pair with, holds of all. -/
theorem pairs_induction (hnodup : l.Nodup) {p : α → Prop}
    (h : ∀ a ∈ l, (∀ b, (b, a) ∈ pairs l → p b) → p a) : ∀ a ∈ l, p a := by
  suffices hall : ∀ before after : List α, l = before ++ after → ∀ a ∈ before, p a from
    hall l [] (List.append_nil l).symm
  intro before
  induction before using List.reverseRecOn with
  | nil => exact fun _ _ a ha => nomatch ha
  | append_singleton before c ih =>
    intro after heq a ha
    rw [List.append_assoc, List.singleton_append] at heq
    rcases List.mem_append.mp ha with ha | ha
    · exact ih _ heq a ha
    · rw [List.mem_singleton.mp ha]
      refine h c (heq ▸ List.mem_append_right _ List.mem_cons_self) fun b hb => ?_
      rw [heq] at hb hnodup
      exact ih _ heq b (mem_before_of_mem_pairs hnodup hb)

end Pairs

/-! ### Statuses -/

section Statuses

/-- The memory is there, and online. -/
def Store.IsOnline (st : Store N) (id : JsText) : Prop :=
  ∃ row, st.row? id = some row ∧ row.status.isOnline = true

variable {st : Store N} {id : JsText} {now : Int} {user : AuthenticatedUser}

/-- The `UPDATE` of the memory, or of another one. -/
theorem isOnline_updateItem (id' : JsText) {f : MemoryItem N → MemoryItem N}
    (hf : ∀ row, (f row).id = row.id) :
    (st.updateItem id' f).IsOnline id ↔
      ∃ row, st.row? id = some row ∧ (if id = id' then f row else row).status.isOnline = true := by
  unfold Store.IsOnline
  split
  · rename_i heq
    rw [heq, row?_updateItem_self hf]
    simp
  · rename_i hne
    rw [row?_updateItem_of_ne hf hne]

/-- Columns other than the status are written. -/
theorem isOnline_kept (id' : JsText) {f : MemoryItem N → MemoryItem N}
    (hf : ∀ row, (f row).id = row.id ∧ (f row).status = row.status) :
    (st.updateItem id' f).IsOnline id ↔ st.IsOnline id := by
  rw [isOnline_updateItem id' fun row => (hf row).1, Store.IsOnline]
  refine exists_congr fun row => and_congr_right fun _ => ?_
  split
  · rw [(hf row).2]
  · rfl

/-- A memory goes offline. -/
theorem isOnline_retired (id' : JsText) {f : MemoryItem N → MemoryItem N}
    (hf : ∀ row, (f row).id = row.id ∧ (f row).status.isOnline = false) :
    (st.updateItem id' f).IsOnline id ↔ st.IsOnline id ∧ id ≠ id' := by
  rw [isOnline_updateItem id' fun row => (hf row).1, Store.IsOnline]
  by_cases heq : id = id'
  · simp [heq, (hf _).2]
  · simp [heq]

theorem isOnline_recorded (id' : JsText) (action : String) (previous next : MemoryStatus)
    (detail : JsText) :
    (st.addMemoryAction now id' user action previous next detail).IsOnline id ↔ st.IsOnline id :=
  Iff.rfl

/-- No step makes a memory online. -/
theorem isOnline_run (u : Upkeep N) :
    (Upkeep.run now user st u).IsOnline id ↔ st.IsOnline id ∧ ∀ item ∈ u.target, id ≠ item.id := by
  cases u with
  | expire item =>
    rw [Upkeep.run, isOnline_recorded, isOnline_retired]
    · simp [Upkeep.target]
    · exact fun row => ⟨rfl, rfl⟩
  | decay item vitality =>
    rw [Upkeep.run, isOnline_kept]
    · simp [Upkeep.target]
    · exact fun row => ⟨rfl, rfl⟩
  | archive item =>
    rw [Upkeep.run, isOnline_recorded, isOnline_retired]
    · simp [Upkeep.target]
    · exact fun row => ⟨rfl, rfl⟩
  | merge left right =>
    rw [Upkeep.run, isOnline_recorded, isOnline_retired, isOnline_kept]
    · simp [Upkeep.target]
    · exact fun row => ⟨rfl, rfl⟩
    · exact fun row => ⟨rfl, rfl⟩
  | conflict left right score =>
    have hitems : (Upkeep.run now user st (.conflict left right score)).items = st.items :=
      addMemoryRelation_eq.1
    rw [Store.IsOnline, Store.row?, hitems]
    simp [Upkeep.target, Store.IsOnline, Store.row?]
  | suspend weaker =>
    rw [Upkeep.run, isOnline_recorded, isOnline_retired]
    · simp [Upkeep.target]
    · exact fun row => ⟨rfl, rfl⟩

/-- A memory is online after some steps if it was, and none of them takes it offline. -/
theorem isOnline_foldl_run (steps : List (Upkeep N)) :
    (steps.foldl (Upkeep.run now user) st).IsOnline id ↔
      st.IsOnline id ∧ id ∉ (steps.filterMap Upkeep.target).map MemoryItem.id := by
  induction steps generalizing st with
  | nil => simp
  | cons u steps ih =>
    rw [List.foldl_cons, ih, isOnline_run, and_assoc]
    refine and_congr_right fun _ => ?_
    cases htarget : u.target with
    | none => simp [htarget]
    | some item => simp [htarget]

end Statuses

/-! ### Records -/

section Records

/-- The memories that actions of one kind are about. -/
def recordedIds (action : String) (actions : List MemoryAction) : List JsText :=
  (actions.filter fun a => a.action = action).map MemoryAction.memoryId

/-- The actions that have been recorded since. -/
def Store.actionsSince (st st' : Store N) : List MemoryAction := st'.actions.drop st.actions.length

variable (now : Int) (user : AuthenticatedUser)

/-- The action that a step records. -/
def Upkeep.record : Upkeep N → Option MemoryAction
  | .expire item => some ⟨item.id, user.orgId, user.id, "expired", item.status, .archived,
      JsText.of "记忆已超过保留期限。", now⟩
  | .decay _ _ => none
  | .archive item => some ⟨item.id, user.orgId, user.id, "auto_archived", item.status, .archived,
      JsText.of "活性低于 20，自动移出在线检索。", now⟩
  | .merge left right => some ⟨right.id, user.orgId, user.id, "merged", right.status, .archived,
      mergedNote left, now⟩
  | .conflict _ _ _ => none
  | .suspend weaker => some ⟨weaker.id, user.orgId, user.id, "conflict_suspended", weaker.status,
      .suspended, JsText.of "与更高置信度记忆冲突，等待人工复核。", now⟩

/-- The memories of the actions of one kind that some steps record. -/
def recordedBy (action : String) (steps : List (Upkeep N)) : List JsText :=
  recordedIds action (steps.filterMap (Upkeep.record now user))

variable {now user} {st : Store N} {action : String}

theorem actions_run (u : Upkeep N) :
    (Upkeep.run now user st u).actions = st.actions ++ (u.record now user).toList := by
  cases u with
  | decay item vitality => exact (List.append_nil st.actions).symm
  | conflict left right score => exact addMemoryRelation_eq.2.2.1.trans (List.append_nil st.actions).symm
  | _ => rfl

theorem actions_foldl_run (steps : List (Upkeep N)) :
    (steps.foldl (Upkeep.run now user) st).actions =
      st.actions ++ steps.filterMap (Upkeep.record now user) := by
  induction steps generalizing st with
  | nil => exact (List.append_nil st.actions).symm
  | cons u steps ih =>
    rw [List.foldl_cons, ih, actions_run, List.append_assoc, List.filterMap_cons]
    cases u.record now user with
    | none => rfl
    | some a => rfl

theorem recordedBy_append (steps steps' : List (Upkeep N)) :
    recordedBy now user action (steps ++ steps') =
      recordedBy now user action steps ++ recordedBy now user action steps' := by
  simp [recordedBy, recordedIds]

/-- What a loop records, at most one action of the kind a turn. -/
theorem recordedBy_flatMap {α : Type} {turn : α → List (Upkeep N)} {p : α → Bool} {id : α → JsText}
    (h : ∀ a, recordedBy now user action (turn a) = if p a then [id a] else []) (l : List α) :
    recordedBy now user action (l.flatMap turn) = (l.filter p).map id := by
  induction l with
  | nil => rfl
  | cons a l ih =>
    rw [List.flatMap_cons, recordedBy_append, h, ih, List.filter_cons]
    split
    · rfl
    · rfl

/-- The report counts the actions. -/
theorem report_merged (now : Int) (user : AuthenticatedUser) (steps : List (Upkeep N))
    (report : MaintenanceReport) :
    (steps.foldl MaintenanceReport.add report).merged =
      report.merged + (recordedBy now user "merged" steps).length := by
  induction steps generalizing report with
  | nil => rfl
  | cons u steps ih =>
    rw [List.foldl_cons, ih, ← List.singleton_append, recordedBy_append, List.length_append, ← Nat.add_assoc]
    congr 1
    cases u with
    | _ => rfl

end Records

section Loops

variable [JsNumber N] (lib : MemoryLibrary N)

/-- The weaker one of two contradictory memories is suspended. -/
def suspends (pair : MemoryItem N × MemoryItem N) : Bool :=
  isConflict lib pair.1 pair.2 && isLoose (weakerOf pair.1 pair.2)

/-- The memory against which the weaker one is suspended. -/
def strongerOf (left right : MemoryItem N) : MemoryItem N :=
  if left.confidence ≤ right.confidence then right else left

/-- The pairs that are merged. -/
def mergedPairs (items : List (MemoryItem N)) : List (MemoryItem N × MemoryItem N) :=
  (onlinePairs items).filter fun pair => isMerged lib pair.1 pair.2

/-- The memories that are merged into others, as often as they are. -/
def mergedIds (items : List (MemoryItem N)) : List JsText :=
  (mergedPairs lib items).map fun pair => pair.2.id

def suspendedIds (items : List (MemoryItem N)) : List JsText :=
  ((onlinePairs items).filter (suspends lib)).map fun pair => (weakerOf pair.1 pair.2).id

variable {lib} {now : Int} {user : AuthenticatedUser} {items : List (MemoryItem N)}

omit [JsNumber N] in
/-- The first loop records that memories expire, or are archived. -/
theorem recordedBy_items {action : String} (hexpired : action ≠ "expired")
    (harchived : action ≠ "auto_archived") :
    recordedBy now user action (items.flatMap (itemUpkeep lib now)) = [] := by
  have hitem : ∀ item, recordedBy now user action (itemUpkeep lib now item) = [] := by
    intro item
    unfold itemUpkeep
    split_ifs <;>
      simp [recordedBy, recordedIds, Upkeep.record, hexpired.symm, harchived.symm]
  induction items with
  | nil => rfl
  | cons item items ih => rw [List.flatMap_cons, recordedBy_append, hitem, ih, List.append_nil]

theorem recordedBy_merged (now : Int) (user : AuthenticatedUser) (items : List (MemoryItem N)) :
    recordedBy now user "merged" (upkeep lib now items) = mergedIds lib items := by
  rw [upkeep, recordedBy_append, recordedBy_items (by decide) (by decide), List.nil_append]
  refine recordedBy_flatMap (fun pair => ?_) _
  unfold pairUpkeep
  split_ifs <;> rfl

theorem recordedBy_suspended :
    recordedBy now user "conflict_suspended" (upkeep lib now items) = suspendedIds lib items := by
  rw [upkeep, recordedBy_append, recordedBy_items (by decide) (by decide), List.nil_append]
  refine recordedBy_flatMap (fun pair => ?_) _
  rw [pairUpkeep, suspends]
  by_cases hmerged : isMerged lib pair.1 pair.2 = true
  · -- what is merged is no conflict
    have hconflict : isConflict lib pair.1 pair.2 = false := by simp [isConflict, hmerged]
    rw [if_pos hmerged, hconflict]
    rfl
  · rw [if_neg hmerged]
    by_cases hconflict : isConflict lib pair.1 pair.2 = true
    · rw [if_pos hconflict, hconflict]
      cases hloose : isLoose (weakerOf pair.1 pair.2) with
      | true => rfl
      | false => rfl
    · rw [if_neg hconflict, Bool.eq_false_iff.mpr hconflict]
      rfl

/-- A memory that has been merged into another one. -/
def NamesTarget (actions : List MemoryAction) (id target : JsText) : Prop :=
  ∃ a ∈ actions, a.action = "merged" ∧ a.memoryId = id ∧ a.detail = JsText.of "已合并到记忆 " ++ target

theorem namesTarget_iff {id target : JsText} :
    NamesTarget ((upkeep lib now items).filterMap (Upkeep.record now user)) id target ↔
      ∃ pair ∈ mergedPairs lib items, pair.2.id = id ∧ pair.1.id = target := by
  constructor
  · rintro ⟨a, hmem, haction, rfl, hdetail⟩
    obtain ⟨u, hu, hrecord⟩ := List.mem_filterMap.mp hmem
    have hdue := due_of_mem_upkeep hu
    cases hdue with
    | merge hpair hmerged =>
      obtain rfl := Option.some.inj hrecord
      exact ⟨_, List.mem_filter.mpr ⟨hpair, hmerged⟩, rfl, List.append_cancel_left hdetail⟩
    | decay hitem hloose => cases hrecord
    | conflict hpair hconflict => cases hrecord
    | _ =>
      obtain rfl := Option.some.inj hrecord
      exact absurd haction (by simp)
  · rintro ⟨⟨left, right⟩, hmem, rfl, rfl⟩
    obtain ⟨hpair, hmerged⟩ := List.mem_filter.mp hmem
    have hmerge : Upkeep.merge left right ∈ upkeep lib now items := by
      refine List.mem_append_right _ (List.mem_flatMap.mpr ⟨_, hpair, ?_⟩)
      rw [pairUpkeep, if_pos hmerged]
      exact List.mem_cons_self
    exact ⟨_, List.mem_filterMap.mpr ⟨_, hmerge, rfl⟩, rfl, rfl, rfl⟩

end Loops

/-! ### A maintenance -/

section Maintenance

variable [JsNumber N] (lib : MemoryLibrary N) (now : Int)

/-- The memories that the first loop and some turns of the second one take offline. -/
def takenOffline (items : List (MemoryItem N)) (turns : List (MemoryItem N × MemoryItem N)) :
    List JsText :=
  (items.filter (dueItem lib now) ++ turns.filterMap (duePair lib)).map MemoryItem.id

/-- The condition on the memories of a maintenance: no memory is similar to two before it, and none of
those that are merged is suspended; what they are merged into is merged as well, or stays online; and a
memory is not taken offline before another one is suspended because of it. -/
structure MergesSafely (items : List (MemoryItem N)) : Prop where
  once : (mergedIds lib items).Nodup
  notSuspended : ∀ id ∈ mergedIds lib items, id ∉ suspendedIds lib items
  target : ∀ pair ∈ mergedPairs lib items,
    pair.1.id ∈ mergedIds lib items ∨ pair.1.id ∉ takenOffline lib now items (onlinePairs items)
  conflict : ∀ before pair after, onlinePairs items = before ++ pair :: after →
    suspends lib pair = true → (strongerOf pair.1 pair.2).id ∉ takenOffline lib now items before

variable (user : AuthenticatedUser) (limit : Nat) (st : Store N)

/-- The store after the first loop and some turns of the second one. -/
def storeAfter (turns : List (MemoryItem N × MemoryItem N)) : Store N :=
  ((maintained lib user limit st).flatMap (itemUpkeep lib now) ++ turns.flatMap (pairUpkeep lib)).foldl
    (Upkeep.run now user)
    (hydrateMemories lib now st (listedMemories lib user (.all .none true (min limit 500)) st))

/-- The actions that a maintenance records. -/
def maintenanceActions : List MemoryAction :=
  st.actionsSince (maintainMemories lib now user limit st).1

/-- A maintenance merges without losing memories. -/
structure MergesKeep : Prop where
  target : ∀ id target, NamesTarget (maintenanceActions lib now user limit st) id target →
    ∃ last, Relation.ReflTransGen (NamesTarget (maintenanceActions lib now user limit st)) target last ∧
      (maintainMemories lib now user limit st).1.IsOnline last
  once : (recordedIds "merged" (maintenanceActions lib now user limit st)).Nodup
  notSuspended : ∀ id ∈ recordedIds "merged" (maintenanceActions lib now user limit st),
    id ∉ recordedIds "conflict_suspended" (maintenanceActions lib now user limit st)
  conflict : ∀ before pair after, onlinePairs (maintained lib user limit st) = before ++ pair :: after →
    suspends lib pair = true →
    (storeAfter lib now user limit st before).IsOnline (strongerOf pair.1 pair.2).id
  count : (maintainMemories lib now user limit st).2.merged =
    (recordedIds "merged" (maintenanceActions lib now user limit st)).toFinset.card

variable {lib now user limit st}

theorem maintenanceActions_eq :
    maintenanceActions lib now user limit st =
      (upkeep lib now (maintained lib user limit st)).filterMap (Upkeep.record now user) := by
  rw [maintenanceActions, Store.actionsSince, maintainMemories, actions_foldl_run,
    (hydrateMemories_eq _).2.2.1, List.drop_left]

theorem maintainMemories_eq :
    (maintainMemories lib now user limit st).1 =
      storeAfter lib now user limit st (onlinePairs (maintained lib user limit st)) :=
  rfl

/-- A memory that was online is so until it is taken offline. -/
theorem isOnline_storeAfter (hunique : st.UniqueIds) {item : MemoryItem N}
    (hitem : item ∈ (maintained lib user limit st).filter fun item => item.status.isOnline)
    (turns : List (MemoryItem N × MemoryItem N)) :
    (storeAfter lib now user limit st turns).IsOnline item.id ↔
      item.id ∉ takenOffline lib now (maintained lib user limit st) turns := by
  obtain ⟨hmem, honline⟩ := List.mem_filter.mp hitem
  have hstart : (hydrateMemories lib now st
      (listedMemories lib user (.all .none true (min limit 500)) st)).IsOnline item.id := by
    refine ⟨item, ?_, honline⟩
    rw [Store.row?, hydrateMemories_items, ← Store.row?]
    exact row?_of_mem hunique (of_mem_maintained hmem).1
  rw [storeAfter, isOnline_foldl_run, List.filterMap_append, targets_items, targets_pairs, takenOffline]
  exact and_iff_right hstart

omit [JsNumber N] in
theorem strongerOf_mem {items : List (MemoryItem N)} {pair : MemoryItem N × MemoryItem N}
    (h : pair ∈ onlinePairs items) :
    strongerOf pair.1 pair.2 ∈ items.filter fun item => item.status.isOnline := by
  rw [strongerOf]
  split
  · exact (mem_pairs h).2
  · exact (mem_pairs h).1

/-- What a memory has been merged into leads to a memory that stays online. -/
theorem exists_online_target (hunique : st.UniqueIds)
    (h : ∀ pair ∈ mergedPairs lib (maintained lib user limit st),
      pair.1.id ∈ mergedIds lib (maintained lib user limit st) ∨
        pair.1.id ∉ takenOffline lib now (maintained lib user limit st)
          (onlinePairs (maintained lib user limit st)))
    (hnodup : ((maintained lib user limit st).map MemoryItem.id).Nodup) :
    ∀ item ∈ (maintained lib user limit st).filter fun item => item.status.isOnline,
      (item.id ∈ mergedIds lib (maintained lib user limit st) ∨
        item.id ∉ takenOffline lib now (maintained lib user limit st)
          (onlinePairs (maintained lib user limit st))) →
      ∃ last, Relation.ReflTransGen (NamesTarget (maintenanceActions lib now user limit st)) item.id last ∧
        (maintainMemories lib now user limit st).1.IsOnline last := by
  have hsub := List.filter_sublist (p := fun item : MemoryItem N => item.status.isOnline)
    (l := maintained lib user limit st)
  have hids := hnodup.sublist (hsub.map MemoryItem.id)
  refine pairs_induction (List.Nodup.of_map _ hids) fun item hitem ih hcase => ?_
  rcases hcase with hmerged | hstays
  · -- the memory has been merged into one before it
    obtain ⟨pair, hpair, hid⟩ := List.mem_map.mp hmerged
    have hpairs := (List.mem_filter.mp hpair).1
    obtain rfl := List.inj_on_of_nodup_map hids (mem_pairs hpairs).2 hitem hid
    obtain ⟨last, hchain, honline⟩ := ih pair.1 hpairs (h pair hpair)
    refine ⟨last, .head ?_ hchain, honline⟩
    rw [maintenanceActions_eq]
    exact namesTarget_iff.mpr ⟨pair, hpair, rfl, rfl⟩
  · refine ⟨item.id, .refl, ?_⟩
    rw [maintainMemories_eq]
    exact (isOnline_storeAfter hunique hitem _).mpr hstays

theorem nodup_maintained (hunique : st.UniqueIds) :
    ((maintained lib user limit st).map MemoryItem.id).Nodup := by
  -- the list is made of different rows
  have hlisted : ((listedMemories lib user (.all .none true (min limit 500)) st).map
      MemoryItem.id).Nodup := by
    have hrows : ((selectMemories lib user (.all .none true (min limit 500)) st).map
        MemoryItem.id).Nodup := by
      refine List.Nodup.sublist ((List.take_sublist _ _).map MemoryItem.id) ?_
      refine ((lib.order.perm beforeInList _).map MemoryItem.id).nodup_iff.mpr ?_
      exact hunique.sublist (List.filter_sublist.map MemoryItem.id)
    rw [listedMemories]
    split
    · exact hrows.sublist (List.filter_sublist.map MemoryItem.id)
    · exact hrows.sublist ((List.filter_sublist.trans List.filter_sublist).map MemoryItem.id)
  rw [maintained]
  split
  · exact hlisted
  · exact hlisted.sublist (List.filter_sublist.map MemoryItem.id)

/-- **When a maintenance merges without losing memories.** -/
theorem mergesKeep_iff (hunique : st.UniqueIds) :
    MergesKeep lib now user limit st ↔ MergesSafely lib now (maintained lib user limit st) := by
  have hmergedIds : recordedIds "merged" (maintenanceActions lib now user limit st) =
      mergedIds lib (maintained lib user limit st) := by
    rw [maintenanceActions_eq]
    exact recordedBy_merged now user _
  have hsuspendedIds : recordedIds "conflict_suspended" (maintenanceActions lib now user limit st) =
      suspendedIds lib (maintained lib user limit st) := by
    rw [maintenanceActions_eq]
    exact recordedBy_suspended
  have hnames : ∀ id target, NamesTarget (maintenanceActions lib now user limit st) id target ↔
      ∃ pair ∈ mergedPairs lib (maintained lib user limit st), pair.2.id = id ∧ pair.1.id = target := by
    intro id target
    rw [maintenanceActions_eq]
    exact namesTarget_iff
  have hconflict : ∀ before pair after,
      onlinePairs (maintained lib user limit st) = before ++ pair :: after →
      ((storeAfter lib now user limit st before).IsOnline (strongerOf pair.1 pair.2).id ↔
        (strongerOf pair.1 pair.2).id ∉ takenOffline lib now (maintained lib user limit st) before) := by
    intro before pair after hsplit
    refine isOnline_storeAfter hunique (strongerOf_mem (hsplit ▸ ?_)) before
    exact List.mem_append_right _ List.mem_cons_self
  constructor
  · intro h
    refine ⟨hmergedIds ▸ h.once, ?_, ?_, ?_⟩
    · rw [← hmergedIds, ← hsuspendedIds]
      exact h.notSuspended
    · intro pair hpair
      obtain ⟨last, hchain, honline⟩ := h.target pair.2.id pair.1.id ((hnames _ _).mpr ⟨pair, hpair, rfl, rfl⟩)
      -- the chain ends at once, or the memory has been merged too
      rcases hchain.cases_head with rfl | ⟨next, hnext, -⟩
      · right
        rw [maintainMemories_eq] at honline
        exact (isOnline_storeAfter hunique (mem_pairs (List.mem_filter.mp hpair).1).1 _).mp honline
      · left
        obtain ⟨other, hother, hid, -⟩ := (hnames _ _).mp hnext
        exact List.mem_map.mpr ⟨other, hother, hid⟩
    · exact fun before pair after hsplit hsuspends =>
        (hconflict before pair after hsplit).mp (h.conflict before pair after hsplit hsuspends)
  · intro h
    refine ⟨?_, hmergedIds.symm ▸ h.once, ?_, ?_, ?_⟩
    · intro id target hname
      obtain ⟨pair, hpair, -, rfl⟩ := (hnames _ _).mp hname
      exact exists_online_target hunique h.target (nodup_maintained hunique) pair.1
        (mem_pairs (List.mem_filter.mp hpair).1).1 (h.target pair hpair)
    · rw [hmergedIds, hsuspendedIds]
      exact h.notSuspended
    · exact fun before pair after hsplit hsuspends =>
        (hconflict before pair after hsplit).mpr (h.conflict before pair after hsplit hsuspends)
    · rw [hmergedIds, List.toFinset_card_of_nodup h.once, ← recordedBy_merged now user,
        maintainMemories, report_merged now user, Nat.zero_add]

end Maintenance

/-! ### Three similar memories -/

section Examples

/-- The calls that write memories of one text, with the numbers that tell them apart. -/
def similarCalls (contents : List Int) : List (MemoryCall Int) :=
  contents.map fun content =>
    .create keeper (JsText.of (toString content)) (plainInput "db down" content 0)

/-- The store after them. -/
def similarStore (contents : List Int) : Store Int :=
  (similarCalls contents).foldl (perform promptLibrary 1) .empty

theorem mergesKeep_iff_twoSimilar :
    MergesKeep promptLibrary 1 keeper 500 (similarStore [1, 2]) ↔
      MergesSafely promptLibrary 1 (maintained promptLibrary keeper 500 (similarStore [1, 2])) :=
  mergesKeep_iff (by rw [Store.UniqueIds]; decide +kernel)

/-- The third of three similar memories is merged into the first and into the second, and counted twice. -/
theorem not_mergesKeep_threeSimilar : ¬ ∀ (now : Int) (user : AuthenticatedUser) (limit : Nat)
    (st : Store Int), st.UniqueIds → MergesKeep promptLibrary now user limit st := by
  intro h
  have honce := (h 1 keeper 500 (similarStore [1, 2, 3]) (by rw [Store.UniqueIds]; decide +kernel)).once
  revert honce
  decide +kernel

end Examples

end AgentService
