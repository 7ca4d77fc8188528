import BoringPanel.AgentService.Memory.Upkeep

/-!
# What a user does not see

A call of a user who is not an administrator does not touch a memory that is invisible to them, and what
`createMemory` returns is visible, but for one case: the content is that of an invisible memory of the
organization, which is then reinforced (`respectsVisibility_iff`).
-/

namespace AgentService

variable {N : Type}

namespace MemoryCall

def user : MemoryCall N → AuthenticatedUser
  | create user _ _ => user
  | update user _ _ => user
  | forget user _ => user
  | retrieve user _ _ _ => user
  | maintain user _ => user
  | list user _ => user
  | get user _ _ => user

/-- The context in which a call looks at memories. -/
def context : MemoryCall N → MemoryContext
  | create _ _ input => input.context
  | retrieve _ context _ _ => context
  | list _ input => input.context
  | get _ _ context => context
  | _ => .none

end MemoryCall

section Calls

variable [JsNumber N] (lib : MemoryLibrary N) (now : Int) (st : Store N)

/-- A memory that a creation returns is visible. -/
def ReturnsVisible : MemoryCall N → Prop
  | .create user id input => ∀ result, (createMemory lib now user id input st).2 = .ok result →
      ∃ memory ∈ result, isVisible memory user input.context = true
  | _ => True

/-- A call does not touch what its user does not see. -/
structure RespectsVisibility (call : MemoryCall N) : Prop where
  untouched : ∀ item ∈ st.items, isVisible item call.user call.context = false →
    Untouched item.id st (perform lib now st call)
  returned : ReturnsVisible lib now st call

/-- The newest memory with the content of a creation is visible, if there is one. -/
def ExistingIsVisible : MemoryCall N → Prop
  | .create user _ input => input.scopeError user = none →
      ∀ item ∈ input.existing lib user st, isVisible item user input.context = true
  | _ => True

end Calls

section Steps

variable {st : Store N} {user : AuthenticatedUser} {context : MemoryContext} {item other : MemoryItem N}

/-- A visible memory and an invisible one are two. -/
theorem id_ne_of_visible (hunique : st.UniqueIds) (hitem : item ∈ st.items)
    (hinvisible : isVisible item user context = false) (hother : other ∈ st.items)
    (hvisible : isVisible other user context = true) : item.id ≠ other.id := by
  intro hid
  have heq : item = other := List.inj_on_of_nodup_map hunique hitem hother hid
  rw [heq, hvisible] at hinvisible
  cases hinvisible

variable [JsNumber N] {lib : MemoryLibrary N} {now : Int} {id : JsText}

/-- A visible memory is found. -/
theorem getMemory_of_row (hunique : st.UniqueIds) (hrow : st.row? id = some item)
    (hvisible : isVisible item user context = true) :
    (getMemory lib now id user context st).2 = some item := by
  have horg : item.orgId = user.orgId := by
    by_contra horg
    rw [isVisible, if_pos horg] at hvisible
    cases hvisible
  rw [getMemory]
  have hsome : (st.items.find? fun row => row.id = id ∧ row.orgId = user.orgId).isSome := by
    rw [List.find?_isSome]
    exact ⟨item, mem_of_row? hrow, by simp [row?_id hrow, horg]⟩
  obtain ⟨row, hfind⟩ := Option.isSome_iff_exists.mp hsome
  have hid : row.id = id := by
    have := List.find?_some hfind
    simp only [decide_eq_true_eq] at this
    exact this.1
  have heq : row = item := List.inj_on_of_nodup_map hunique (List.mem_of_find?_eq_some hfind)
    (mem_of_row? hrow) (hid.trans (row?_id hrow).symm)
  rw [hfind, heq]
  dsimp only
  rw [if_pos (.inl hvisible)]

/-- An operation on a memory that has been read, by a user who is not an administrator. -/
theorem untouched_withMemory (hunique : st.UniqueIds) (huser : user.role ≠ .admin)
    {change : MemoryItem N → Store N → Fallibly N}
    (hchange : ∀ st' current, item.id ≠ id → Untouched item.id st' (change current st').1)
    (hitem : item ∈ st.items) (hinvisible : isVisible item user .none = false) :
    Untouched item.id st (withMemory lib now user id change st).1 := by
  rcases withMemory_cases lib now user id change st with h | ⟨current, hmem, hid, -, hvisible, h⟩
  · rw [h]
    exact .refl _ _
  · rw [h]
    have hne := id_ne_of_visible hunique hitem hinvisible hmem (hvisible.resolve_right huser)
    rw [hid] at hne
    exact (untouched_hydrateMemories [current] item.id).trans (hchange _ current hne)

theorem untouched_updateMemory (hunique : st.UniqueIds) (huser : user.role ≠ .admin)
    (input : UpdateInput) (hitem : item ∈ st.items) (hinvisible : isVisible item user .none = false) :
    Untouched item.id st (updateMemory lib now user id input st).1 := by
  refine untouched_withMemory hunique huser (fun st current hne => ?_) hitem hinvisible
  dsimp only
  split
  · exact .refl _ _
  · have hrow : Untouched item.id st (st.updateItem id (input.apply now current)) :=
      untouched_updateItem (fun _ => rfl) hne
    refine hrow.trans (.trans ?_ (.trans (untouched_addMemoryAction hne) (untouched_getMemory _)))
    split
    · exact untouched_updateChunks
    · exact .refl _ _

theorem untouched_forgetMemory (hunique : st.UniqueIds) (huser : user.role ≠ .admin)
    (hitem : item ∈ st.items) (hinvisible : isVisible item user .none = false) :
    Untouched item.id st (forgetMemory lib now user id st).1 := by
  refine untouched_withMemory hunique huser (fun st current hne => ?_) hitem hinvisible
  dsimp only
  split
  · exact .refl _ _
  · have hrow : Untouched item.id st (st.updateItem id (MemoryItem.forget lib now)) :=
      untouched_updateItem (fun _ => rfl) hne
    exact hrow.trans (untouched_deleteChunks.trans
      (.trans (untouched_addMemoryAction hne) (untouched_getMemory _)))

theorem untouched_retrieveMemories (hunique : st.UniqueIds) (includeInactive : Bool)
    (ranking : Ranking N) (hitem : item ∈ st.items)
    (hinvisible : isVisible item user context = false) :
    Untouched item.id st (retrieveMemories lib now user context includeInactive ranking st).1 := by
  refine (untouched_hydrateMemories _ item.id).trans (.foldl (fun st' memory hmem => ?_) _)
  have hcandidate : memory ∈ listedMemories lib user (.all context includeInactive 800) st :=
    (ranking.subperm _).subset hmem
  obtain ⟨hmemory, hvisible⟩ := of_mem_listedMemories hcandidate
  exact untouched_updateItem (fun _ => rfl)
    (id_ne_of_visible hunique hitem hinvisible hmemory hvisible)

/-! ### Maintenance -/

theorem untouched_maintainMemories (hunique : st.UniqueIds) (limit : Nat) (hitem : item ∈ st.items)
    (hinvisible : isVisible item user .none = false) :
    Untouched item.id st (maintainMemories lib now user limit st).1 := by
  refine (untouched_hydrateMemories _ item.id).trans (.foldl (fun st' u hu => ?_) _)
  refine untouched_run fun changed hchanged => ?_
  obtain ⟨hmem, hvisible⟩ := of_mem_maintained (mem_of_changed hu hchanged)
  exact id_ne_of_visible hunique hitem hinvisible hmem hvisible

/-! ### Creation -/

variable {input : CreateInput N}

/-- A memory of the user is visible, one of a thread also only there. -/
theorem isVisible_of_own (horg : item.orgId = user.orgId) (huser : item.userId = user.id)
    (hthread : item.scope = .thread → context.threadId ≠ [] ∧ item.threadId = context.threadId) :
    isVisible item user context = true := by
  unfold isVisible
  rw [if_neg (not_not.mpr horg)]
  cases hscope : item.scope with
  | organization => rfl
  | thread => exact decide_eq_true (hthread hscope)
  | workflow => exact decide_eq_true (.inr huser)
  | user => exact decide_eq_true huser
  | agent => exact decide_eq_true huser

theorem isVisible_row (h : input.scopeError user = none) :
    isVisible (input.row lib now user id) user input.context = true := by
  refine isVisible_of_own rfl rfl fun hscope => ?_
  have hscope : input.scope = .thread := hscope
  have hthread : input.threadId ≠ [] := by
    intro hnil
    simp [CreateInput.scopeError, hscope, hnil] at h
  exact ⟨hthread, rfl⟩

/-- The memory that the creation of a new row returns, and what it leaves alone. -/
theorem completeMemory_spec (hunique : st.UniqueIds) (hnone : st.row? id = none)
    (hscope : input.scopeError user = none) :
    (∃ memory ∈ (completeMemory lib now user input id
        { st with items := st.items ++ [input.row lib now user id] }).2,
      isVisible memory user input.context = true) ∧
    ∀ id', id' ≠ id → Untouched id' st (completeMemory lib now user input id
      { st with items := st.items ++ [input.row lib now user id] }).1 := by
  let row := input.row lib now user id
  have hvisible : isVisible row user input.context = true := isVisible_row hscope
  have hinserted : ∀ s : Store N, s.items = st.items ++ [row] →
      s.UniqueIds ∧ s.row? id = some row := by
    intro s hs
    refine ⟨?_, ?_⟩
    · have := uniqueIds_insert row hunique hnone
      rw [Store.UniqueIds] at this ⊢
      rwa [hs]
    · rw [Store.row?, hs]
      exact row?_insert_self row hnone
  rw [completeMemory]
  split
  rename_i st' created hget
  have hread : ∀ s : Store N, s.items = st.items ++ [row] →
      (getMemory lib now id user input.context s).2 = some row := by
    intro s hs
    obtain ⟨hu, hrow⟩ := hinserted s hs
    exact getMemory_of_row hu hrow hvisible
  have hcreated : some row = created := by
    have hsnd := congrArg Prod.snd hget
    rw [hread] at hsnd
    · exact hsnd
    · exact addMemorySources_eq.1
  have hitems : st'.items = st.items ++ [row] := by
    rw [show st' = _ from (congrArg Prod.fst hget).symm, getMemory_eq.1]
    exact addMemorySources_eq.1
  rw [← hcreated]
  refine ⟨⟨row, ?_, hvisible⟩, fun id' hid => ?_⟩
  · exact hread _ ((createMemoryRelations_eq row).1.trans hitems)
  · have hinsert : Untouched id' st { st with items := st.items ++ [row] } :=
      ⟨row?_insert row hid, rfl, rfl⟩
    have hst' : Untouched id' st st' := by
      rw [show st' = _ from (congrArg Prod.fst hget).symm]
      exact hinsert.trans ((untouched_addMemorySources hid).trans
        ((untouched_addMemoryAction hid).trans (untouched_getMemory id')))
    exact hst'.trans ((untouched_createMemoryRelations row id').trans (untouched_getMemory id'))

/-- The row of a memory whose content occurs again. -/
theorem row?_reinforceMemory (hunique : st.UniqueIds) (hitem : item ∈ st.items) :
    (reinforceMemory lib now user input item st).1.row? item.id =
      some (input.reinforce lib now item item) := by
  have hf : ∀ row, (input.reinforce lib now item row).id = row.id := fun _ => rfl
  rw [reinforceMemory, (untouched_getMemory item.id).row]
  show (addMemorySources now _ item.id input.sources).row? item.id = _
  rw [Store.row?, addMemorySources_eq.1, ← Store.row?, row?_updateItem_self hf,
    row?_of_mem hunique hitem]
  rfl

/-- The memory that is returned when the content of a visible one occurs again. -/
theorem reinforceMemory_snd (hunique : st.UniqueIds) (hitem : item ∈ st.items)
    (hvisible : isVisible item user input.context = true) :
    (reinforceMemory lib now user input item st).2 = some (input.reinforce lib now item item) := by
  have hf : ∀ row, (input.reinforce lib now item row).id = row.id := fun _ => rfl
  let updated := st.updateItem item.id (input.reinforce lib now item)
  have hitems : ∀ s : Store N, s.items = updated.items →
      (getMemory lib now item.id user input.context s).2 = some (input.reinforce lib now item item) := by
    intro s hs
    refine getMemory_of_row ?_ ?_ hvisible
    · have hids : updated.UniqueIds := uniqueIds_updateItem hf hunique
      rw [Store.UniqueIds] at hids ⊢
      rwa [hs]
    · rw [Store.row?, hs, ← Store.row?, row?_updateItem_self hf, row?_of_mem hunique hitem]
      rfl
  exact hitems _ addMemorySources_eq.1

/-- A creation of content that is not there, or is in a visible memory. -/
theorem respectsVisibility_create (hunique : st.UniqueIds)
    (h : ExistingIsVisible lib st (.create user id input)) :
    RespectsVisibility lib now st (.create user id input) := by
  have hspec : (∀ other ∈ st.items, isVisible other user input.context = false →
      Untouched other.id st (createMemory lib now user id input st).1) ∧
      ReturnsVisible lib now st (.create user id input) := by
    rw [ReturnsVisible, createMemory]
    cases hscope : input.scopeError user with
    | some err =>
      refine ⟨fun _ _ _ => .refl _ _, fun result hresult => ?_⟩
      cases hresult
    | none =>
      cases hexisting : input.existing lib user st with
      | some item =>
        have hitem := (existing_mem hexisting).1
        have hvisible := h hscope item hexisting
        refine ⟨fun other hother hinvisible => ?_, fun result hresult => ?_⟩
        · have hne := id_ne_of_visible hunique hother hinvisible hitem hvisible
          have hf : ∀ row, (input.reinforce lib now item row).id = row.id := fun _ => rfl
          exact (untouched_updateItem hf hne).trans ((untouched_addMemorySources hne).trans
            ((untouched_addMemoryAction hne).trans (untouched_getMemory other.id)))
        · obtain rfl := Except.ok.inj hresult
          exact ⟨_, reinforceMemory_snd hunique hitem hvisible, hvisible⟩
      | none =>
        dsimp only
        split
        · refine ⟨fun _ _ _ => .refl _ _, fun result hresult => ?_⟩
          cases hresult
        · rename_i hfresh
          have hnone : st.row? id = none := by
            refine row?_eq_none_iff.mpr fun row hrow hid => hfresh ?_
            rw [List.any_eq_true]
            exact ⟨row, hrow, decide_eq_true hid⟩
          obtain ⟨hreturned, hothers⟩ := @completeMemory_spec _ _ _ _ lib now _ _ hunique hnone hscope
          refine ⟨fun other hother _ => ?_, fun result hresult => ?_⟩
          · exact hothers other.id (row?_eq_none_iff.mp hnone other hother)
          · obtain rfl := Except.ok.inj hresult
            exact hreturned
  exact ⟨hspec.1, hspec.2⟩

/-- The content of an invisible memory: it is reinforced. -/
theorem existingIsVisible_of_respects (hunique : st.UniqueIds)
    (h : RespectsVisibility lib now st (.create user id input)) :
    ExistingIsVisible lib st (.create user id input) := by
  intro hscope item hexisting
  by_contra hinvisible
  rw [Bool.not_eq_true] at hinvisible
  have hmem := (existing_mem hexisting).1
  have hrow : (createMemory lib now user id input st).1.row? item.id = st.row? item.id :=
    (h.untouched item hmem hinvisible).row
  have hexisting' : input.existing lib user st = some item := hexisting
  rw [createMemory, hscope, hexisting', row?_of_mem hunique hmem] at hrow
  have hreinforced : some (input.reinforce lib now item item) = some item :=
    (row?_reinforceMemory hunique hmem).symm.trans hrow
  have hcount : item.reinforcementCount + 1 = item.reinforcementCount :=
    congrArg MemoryItem.reinforcementCount (Option.some.inj hreinforced)
  omega

/-- **A user touches no memory that they do not see**, and is given one that they see, exactly if the call
does not create content that the newest memory with it hides from them. -/
theorem respectsVisibility_iff (hunique : st.UniqueIds) {call : MemoryCall N}
    (huser : call.user.role ≠ .admin) :
    RespectsVisibility lib now st call ↔ ExistingIsVisible lib st call := by
  cases call with
  | create user id input =>
    exact ⟨existingIsVisible_of_respects hunique, respectsVisibility_create hunique⟩
  | update user id input =>
    refine iff_of_true ⟨fun item hitem hinvisible => ?_, trivial⟩ trivial
    exact untouched_updateMemory hunique huser input hitem hinvisible
  | forget user id =>
    refine iff_of_true ⟨fun item hitem hinvisible => ?_, trivial⟩ trivial
    exact untouched_forgetMemory hunique huser hitem hinvisible
  | retrieve user context includeInactive ranking =>
    refine iff_of_true ⟨fun item hitem hinvisible => ?_, trivial⟩ trivial
    exact untouched_retrieveMemories hunique includeInactive ranking hitem hinvisible
  | maintain user limit =>
    refine iff_of_true ⟨fun item hitem hinvisible => ?_, trivial⟩ trivial
    exact untouched_maintainMemories hunique limit hitem hinvisible
  | list user input =>
    exact iff_of_true ⟨fun item _ _ => untouched_hydrateMemories _ item.id, trivial⟩ trivial
  | get user id context =>
    exact iff_of_true ⟨fun item _ _ => untouched_getMemory item.id, trivial⟩ trivial

end Steps

/-! ### Two users with the same content -/

section Examples

/-- Another user of the organization. -/
def stranger : AuthenticatedUser := ⟨JsText.of "v", JsText.of "o", .editor⟩

/-- A store with one memory, which is private. -/
def keptStore : Store Int :=
  perform promptLibrary 1 .empty (.create keeper (JsText.of "1") (plainInput "db down" 1 0))

theorem respectsVisibility_iff_stranger :
    RespectsVisibility promptLibrary 2 keptStore
        (.create stranger (JsText.of "2") (plainInput "db up" 2 0)) ↔
      ExistingIsVisible promptLibrary keptStore
        (.create stranger (JsText.of "2") (plainInput "db up" 2 0)) :=
  respectsVisibility_iff (by rw [Store.UniqueIds]; decide +kernel) (by decide)

/-- The other user writes what the memory holds. -/
theorem not_respectsVisibility_sameContent : ¬ ∀ (st : Store Int) (call : MemoryCall Int),
    st.UniqueIds → call.user.role ≠ .admin → RespectsVisibility promptLibrary 2 st call := by
  intro h
  have hunique : keptStore.UniqueIds := by
    rw [Store.UniqueIds]
    decide +kernel
  have hvisible := existingIsVisible_of_respects hunique
    (h keptStore (.create stranger (JsText.of "2") (plainInput "db up" 1 0)) hunique (by decide)) rfl
  have hinvisible : ((plainInput "db up" 1 0).existing promptLibrary stranger keptStore).map
      (fun item => isVisible item stranger (plainInput "db up" 1 0).context) = some false := by
    decide +kernel
  obtain ⟨item, hitem, hfalse⟩ := Option.map_eq_some_iff.mp hinvisible
  rw [hvisible item hitem] at hfalse
  cases hfalse

end Examples

end AgentService
