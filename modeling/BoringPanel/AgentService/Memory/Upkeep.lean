import BoringPanel.AgentService.Memory.Frame

/-!
# What the maintenance may change

A maintenance takes one step after the other for the memories that it has listed, and only the steps
that the listed rows allow (`Upkeep.Due`). So a pinned memory keeps its status, a verified one loses it
only when it has expired, a user who is no admin changes nothing of the organization, and what a memory
says stays (`KeptRow`, `maintainMemories_keeps`). Rows are neither added nor deleted. Chunks are only
added, when the listed memories are hydrated.
-/

namespace AgentService

variable {N : Type}

/-! ### Steps -/

section Steps

variable [JsNumber N] (lib : MemoryLibrary N) (now : Int) (items : List (MemoryItem N))

/-- The steps of a maintenance of some memories, each with what allows it. -/
inductive Upkeep.Due : Upkeep N → Prop
  | expire {item : MemoryItem N} : item ∈ items → isExpired now item = true → Due (.expire item)
  | decay {item : MemoryItem N} : item ∈ items → isLoose item = true →
    Due (.decay item (currentVitality lib now item))
  | archive {item : MemoryItem N} : item ∈ items → fades lib now item = true → Due (.archive item)
  | merge {left right : MemoryItem N} : (left, right) ∈ onlinePairs items →
    isMerged lib left right = true → Due (.merge left right)
  | conflict {left right : MemoryItem N} {score : Int} : (left, right) ∈ onlinePairs items →
    isConflict lib left right = true → Due (.conflict left right score)
  | suspend {left right : MemoryItem N} : (left, right) ∈ onlinePairs items →
    isConflict lib left right = true → isLoose (weakerOf left right) = true →
    Due (.suspend (weakerOf left right))

variable {lib now items} {u : Upkeep N}

theorem due_of_mem_itemUpkeep {item : MemoryItem N} (hitem : item ∈ items)
    (h : u ∈ itemUpkeep lib now item) : u.Due lib now items := by
  rw [itemUpkeep] at h
  split at h
  · cases h
  split at h
  · rename_i hexpired
    rw [List.mem_singleton.mp h]
    exact .expire hitem hexpired
  split at h
  · cases h
  rename_i hloose
  have hloose : isLoose item = true := by simpa using hloose
  rcases List.mem_append.mp h with h | h
  · split at h
    · rw [List.mem_singleton.mp h]
      exact .decay hitem hloose
    · cases h
  · split at h
    · rename_i hfades
      rw [List.mem_singleton.mp h]
      exact .archive hitem hfades
    · cases h

theorem due_of_mem_pairUpkeep {pair : MemoryItem N × MemoryItem N} (hpair : pair ∈ onlinePairs items)
    (h : u ∈ pairUpkeep lib pair) : u.Due lib now items := by
  obtain ⟨left, right⟩ := pair
  rw [pairUpkeep] at h
  split at h
  · rename_i hmerged
    rw [List.mem_singleton.mp h]
    exact .merge hpair hmerged
  split at h
  · rename_i hconflict
    rcases List.mem_cons.mp h with rfl | h
    · exact .conflict hpair hconflict
    · split at h
      · rename_i hloose
        rw [List.mem_singleton.mp h]
        exact .suspend hpair hconflict hloose
      · cases h
  · cases h

omit [JsNumber N] in
theorem mem_of_mem_onlinePairs {pair : MemoryItem N × MemoryItem N} (h : pair ∈ onlinePairs items) :
    pair.1 ∈ items ∧ pair.2 ∈ items :=
  ⟨(List.mem_filter.mp (mem_pairs h).1).1, (List.mem_filter.mp (mem_pairs h).2).1⟩

omit [JsNumber N] in
theorem weakerOf_mem {left right : MemoryItem N} (h : (left, right) ∈ onlinePairs items) :
    weakerOf left right ∈ items := by
  rw [weakerOf]
  split
  · exact (mem_of_mem_onlinePairs h).1
  · exact (mem_of_mem_onlinePairs h).2

/-- The two loops take only steps that are due. -/
theorem due_of_mem_upkeep (h : u ∈ upkeep lib now items) : u.Due lib now items := by
  rw [upkeep, List.mem_append, List.mem_flatMap, List.mem_flatMap] at h
  rcases h with ⟨item, hitem, h⟩ | ⟨pair, hpair, h⟩
  · exact due_of_mem_itemUpkeep hitem h
  · exact due_of_mem_pairUpkeep hpair h

/-- The memories whose rows a step changes. -/
def Upkeep.changed : Upkeep N → List (MemoryItem N)
  | .expire item => [item]
  | .decay item _ => [item]
  | .archive item => [item]
  | .merge left right => [left, right]
  | .conflict _ _ _ => []
  | .suspend weaker => [weaker]

/-- What a maintenance changes was among its memories. -/
theorem mem_of_changed {item : MemoryItem N} (hu : u ∈ upkeep lib now items) (h : item ∈ u.changed) :
    item ∈ items := by
  have hdue := due_of_mem_upkeep hu
  cases hdue with
  | expire hitem hexpired => rwa [List.mem_singleton.mp h]
  | decay hitem hloose => rwa [List.mem_singleton.mp h]
  | archive hitem hfades => rwa [List.mem_singleton.mp h]
  | merge hpair hmerged =>
    obtain ⟨hleft, hright⟩ := mem_of_mem_onlinePairs hpair
    rcases List.mem_cons.mp h with rfl | h
    · exact hleft
    · rwa [List.mem_singleton.mp h]
  | conflict hpair hconflict => cases h
  | suspend hpair hconflict hloose =>
    rw [List.mem_singleton.mp h]
    exact weakerOf_mem hpair

omit [JsNumber N] in
/-- A step for other memories. -/
theorem untouched_run {st : Store N} {id : JsText} {user : AuthenticatedUser}
    (h : ∀ changed ∈ u.changed, id ≠ changed.id) :
    Untouched id st (Upkeep.run now user st u) := by
  cases u with
  | expire item => exact untouched_recorded (fun _ => rfl) (h item List.mem_cons_self)
  | decay item vitality => exact untouched_updateItem (fun _ => rfl) (h item List.mem_cons_self)
  | archive item => exact untouched_recorded (fun _ => rfl) (h item List.mem_cons_self)
  | merge left right =>
    have hleft : Untouched id st (st.updateItem left.id fun row =>
        { row with
          reinforcementCount := row.reinforcementCount + 1
          vitality := min 100 (row.vitality + 5)
          lastReinforcedAt := now
          updatedAt := now }) :=
      untouched_updateItem (fun _ => rfl) (h left List.mem_cons_self)
    exact hleft.trans
      (untouched_recorded (fun _ => rfl) (h right (List.mem_cons_of_mem _ List.mem_cons_self)))
  | conflict left right score =>
    exact .of_eq addMemoryRelation_eq.1 addMemoryRelation_eq.2.1 addMemoryRelation_eq.2.2.1 id
  | suspend weaker => exact untouched_recorded (fun _ => rfl) (h weaker List.mem_cons_self)

end Steps

/-! ### Rows -/

section Rows

variable (now : Int) (user : AuthenticatedUser)

/-- What a maintenance keeps of a row. -/
structure KeptRow (row row' : MemoryItem N) : Prop where
  id : row'.id = row.id
  title : row'.title = row.title
  summary : row'.summary = row.summary
  content : row'.content = row.content
  tags : row'.tags = row.tags
  scope : row'.scope = row.scope
  pinned : row.pinned = true → row'.status = row.status
  verified : row.status = .verified →
    row'.status = .verified ∨ isExpired now row = true ∧ row'.status = .archived
  organization : user.role ≠ .admin → row.scope = .organization → row' = row

/-- Every row is still there, in its place, and what is to be kept of it is. -/
def KeepsRows (rows rows' : List (MemoryItem N)) : Prop := List.Forall₂ (KeptRow now user) rows rows'

variable {now user} {rows : List (MemoryItem N)} {st : Store N}

theorem KeptRow.refl (row : MemoryItem N) : KeptRow now user row row :=
  ⟨rfl, rfl, rfl, rfl, rfl, rfl, fun _ => rfl, .inl, fun _ _ => rfl⟩

/-- Other columns are written, and perhaps the status of a loose memory. -/
theorem KeptRow.write {row row' : MemoryItem N} (h : KeptRow now user row row')
    (hscope : user.role ≠ .admin → row.scope ≠ .organization) {status : MemoryStatus}
    (hstatus : status = row'.status ∨ isLoose row = true) (vitality reinforcementCount : Int)
    (note : JsText) (lastReinforcedAt updatedAt : Int) :
    KeptRow now user row { row' with
      status := status
      vitality := vitality
      reinforcementCount := reinforcementCount
      note := note
      lastReinforcedAt := lastReinforcedAt
      updatedAt := updatedAt } := by
  refine ⟨h.id, h.title, h.summary, h.content, h.tags, h.scope, ?_, ?_, ?_⟩
  · intro hpinned
    rcases hstatus with rfl | hloose
    · exact h.pinned hpinned
    · simp [isLoose, hpinned] at hloose
  · intro hverified
    rcases hstatus with rfl | hloose
    · exact h.verified hverified
    · simp [isLoose, hverified] at hloose
  · exact fun hrole horganization => absurd horganization (hscope hrole)

/-- A memory that has expired is archived. -/
theorem KeptRow.expire {row row' : MemoryItem N} (h : KeptRow now user row row')
    (hscope : user.role ≠ .admin → row.scope ≠ .organization) (hexpired : isExpired now row = true) :
    KeptRow now user row { row' with status := .archived, vitality := 0, updatedAt := now } := by
  refine ⟨h.id, h.title, h.summary, h.content, h.tags, h.scope, ?_, ?_, ?_⟩
  · intro hpinned
    simp [isExpired, hpinned] at hexpired
  · exact fun _ => .inr ⟨hexpired, rfl⟩
  · exact fun hrole horganization => absurd horganization (hscope hrole)

/-- The `UPDATE` of one row keeps the rows, if it keeps that one. -/
theorem KeepsRows.updateItem (hunique : (rows.map MemoryItem.id).Nodup) {item : MemoryItem N}
    (hitem : item ∈ rows) {f : MemoryItem N → MemoryItem N} (h : KeepsRows now user rows st.items)
    (hf : ∀ row', KeptRow now user item row' → KeptRow now user item (f row')) :
    KeepsRows now user rows (st.updateItem item.id f).items := by
  show List.Forall₂ _ rows (st.items.map fun row => if row.id = item.id then f row else row)
  rw [List.forall₂_map_right_iff]
  refine List.Forall₂.imp ?_ ((List.forall₂_and_left ..).mpr ⟨fun row hrow => hrow, h⟩)
  rintro row row' ⟨hrow, hkept⟩
  split
  · rename_i hid
    -- the identifier tells which row it is
    obtain rfl := List.inj_on_of_nodup_map hunique hrow hitem (hkept.id.symm.trans hid)
    exact hf row' hkept
  · exact hkept

/-- What a step that is due keeps. -/
theorem KeepsRows.run [JsNumber N] {lib : MemoryLibrary N} {items : List (MemoryItem N)}
    (hunique : (rows.map MemoryItem.id).Nodup)
    (hitems : ∀ item ∈ items, item ∈ rows ∧ (user.role ≠ .admin → item.scope ≠ .organization))
    {u : Upkeep N} (hu : u.Due lib now items) (h : KeepsRows now user rows st.items) :
    KeepsRows now user rows (Upkeep.run now user st u).items := by
  cases hu with
  | expire hitem hexpired =>
    obtain ⟨hrow, hscope⟩ := hitems _ hitem
    exact h.updateItem hunique hrow fun row' hkept => hkept.expire hscope hexpired
  | decay hitem hloose =>
    obtain ⟨hrow, hscope⟩ := hitems _ hitem
    exact h.updateItem hunique hrow fun row' hkept => hkept.write hscope (.inl rfl) _ _ _ _ _
  | archive hitem hfades =>
    obtain ⟨hrow, hscope⟩ := hitems _ hitem
    have hloose : isLoose _ = true := (of_decide_eq_true hfades).1
    exact h.updateItem hunique hrow fun row' hkept => hkept.write hscope (.inr hloose) _ _ _ _ _
  | merge hpair hmerged =>
    obtain ⟨hleft, hright⟩ := mem_of_mem_onlinePairs hpair
    obtain ⟨hleft, hleftScope⟩ := hitems _ hleft
    obtain ⟨hright, hrightScope⟩ := hitems _ hright
    have hloose : isLoose _ = true := (of_decide_eq_true hmerged).2.2
    have hreinforced := h.updateItem hunique hleft fun row' hkept =>
      hkept.write hleftScope (.inl rfl) (min 100 (row'.vitality + 5)) (row'.reinforcementCount + 1)
        row'.note now now
    exact hreinforced.updateItem hunique hright fun row' hkept =>
      hkept.write hrightScope (.inr hloose) _ _ _ _ _
  | conflict hpair hconflict =>
    show KeepsRows now user rows (st.addMemoryRelation _).items
    rwa [addMemoryRelation_eq.1]
  | suspend hpair hconflict hloose =>
    obtain ⟨hrow, hscope⟩ := hitems _ (weakerOf_mem hpair)
    exact h.updateItem hunique hrow fun row' hkept => hkept.write hscope (.inr hloose) _ _ _ _ _

end Rows

/-! ### A maintenance -/

section Maintenance

/-- The relations of a memory. -/
def Store.relationsOf (st : Store N) (id : JsText) : List MemoryRelation :=
  st.relations.filter fun relation => relation.fromMemoryId = id ∨ relation.toMemoryId = id

/-- What a maintenance leaves of a memory of the organization, for a user who is no admin. -/
structure LeftAlone (id : JsText) (st st' : Store N) : Prop extends Untouched id st st' where
  relations : st'.relationsOf id = st.relationsOf id

variable {st st' st'' : Store N} {id : JsText} {now : Int} {user : AuthenticatedUser}

theorem LeftAlone.trans (h : LeftAlone id st st') (h' : LeftAlone id st' st'') : LeftAlone id st st'' :=
  ⟨h.toUntouched.trans h'.toUntouched, h'.relations.trans h.relations⟩

theorem relationsOf_addMemoryRelation {relation : MemoryRelation} (hfrom : id ≠ relation.fromMemoryId)
    (hto : id ≠ relation.toMemoryId) : (st.addMemoryRelation relation).relationsOf id = st.relationsOf id := by
  rw [Store.addMemoryRelation]
  split
  · rfl
  · show List.filter _ (st.relations ++ [relation]) = _
    rw [List.filter_append, Store.relationsOf]
    simp [hfrom.symm, hto.symm]

variable [JsNumber N] {lib : MemoryLibrary N} {items : List (MemoryItem N)} {u : Upkeep N}

/-- A step for other memories. -/
theorem leftAlone_run (h : ∀ item ∈ items, id ≠ item.id) (hu : u ∈ upkeep lib now items) :
    LeftAlone id st (Upkeep.run now user st u) := by
  refine ⟨untouched_run fun changed hchanged => h changed (mem_of_changed hu hchanged), ?_⟩
  have hdue := due_of_mem_upkeep hu
  cases hdue with
  | conflict hpair hconflict =>
    obtain ⟨hleft, hright⟩ := mem_of_mem_onlinePairs hpair
    exact relationsOf_addMemoryRelation (h _ hleft) (h _ hright)
  | _ => rfl

/-- Chunks are only written for memories that have none. -/
theorem chunks_hydrateMemories (items : List (MemoryItem N)) :
    st.chunks <+: (hydrateMemories lib now st items).chunks := by
  rw [hydrateMemories]
  have hmissing : ∀ item ∈ items.filter fun item =>
      item.status ≠ .forgotten ∧ item.id ∉ st.chunks.map MemoryChunk.memoryId,
      item.id ∉ st.chunks.map MemoryChunk.memoryId := by
    intro item hitem
    exact (of_decide_eq_true (List.mem_filter.mp hitem).2).2
  refine List.foldlRecOn (motive := fun st' : Store N => st.chunks <+: st'.chunks) _ _ (List.prefix_refl _) ?_
  rintro st' ⟨rest, hrest⟩ item hitem
  -- the DELETE finds none of the chunks that were there
  have hkept : st.chunks.filter (fun chunk => chunk.memoryId ≠ item.id) = st.chunks := by
    rw [List.filter_eq_self]
    intro chunk hchunk
    refine decide_eq_true fun hid => hmissing item hitem ?_
    exact List.mem_map.mpr ⟨chunk, hchunk, hid⟩
  show st.chunks <+: st'.chunks.filter (fun chunk => chunk.memoryId ≠ item.id) ++ _
  rw [← hrest, List.filter_append, hkept, List.append_assoc]
  exact List.prefix_append _ _

omit [JsNumber N] in
theorem chunks_run : (Upkeep.run now user st u).chunks = st.chunks := by
  cases u with
  | conflict left right score => exact addMemoryRelation_eq.2.2.2
  | _ => rfl

/-- A store with one memory, which has expired. -/
def expiredStore : Store Int :=
  perform promptLibrary 1 .empty (.create keeper (JsText.of "1") (plainInput "db down" 1 1))

end Maintenance

end AgentService
