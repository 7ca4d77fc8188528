import BoringPanel.AgentService.Memory.Visibility
import BoringPanel.Lib.FirstRows

/-!
# What a list of memories shows

`listMemories` lets SQLite cut the rows of the organization at the limit, at most 500, and filters
afterwards what the user sees and what contains the query. So rows that are invisible take the place of
visible ones. `showsFirst_considersFirst_iff` says when a list shows the first of the memories that match,
and when a retrieval considers the first of the visible ones, up to its 800 candidates.
-/

namespace AgentService

open FirstRows

variable {N : Type} [JsNumber N] (lib : MemoryLibrary N) (user : AuthenticatedUser) (input : ListInput)
  (st : Store N)

/-- What the `WHERE` of `listMemories` asks for. -/
def isSelected (item : MemoryItem N) : Bool :=
  item.orgId = user.orgId ∧ isWanted input.type item.type ∧ isWanted input.scope item.scope ∧
    isWanted input.status item.status ∧
    (input.status.isSome ∨ input.includeInactive ∨ item.status.isOnline) ∧
    (input.serviceName = [] ∨ item.serviceName = input.serviceName)

/-- The user sees the memory, and it contains the query. -/
def isShown (item : MemoryItem N) : Bool :=
  isVisible item user input.context &&
    (lib.toLowerCase (JsText.trim input.query) = [] ∨
      lib.toLowerCase (JsText.trim input.query) <:+: lib.toLowerCase (textForMemory item))

/-- The rows in the order of the `SELECT`, without its `LIMIT`. -/
def orderedRows : List (MemoryItem N) :=
  lib.order.sort beforeInList (st.items.filter (isSelected user input))

/-- The memories that match and are visible. -/
def matchingMemories : List (MemoryItem N) :=
  (st.items.filter (isSelected user input)).filter (isShown lib user input)

/-- The limit that is asked for. -/
def ListInput.askedLimit : Nat := if input.limit = 0 then 200 else input.limit

/-- A list shows the first of the memories that match, as many as are asked for. -/
def ShowsFirst : Prop :=
  FirstOf beforeInList input.askedLimit (matchingMemories lib user input st) (listedMemories lib user input st)

/-- The condition on the rows: what stands behind the first 500 or fewer of them is not shown anyway, or
not more were asked for and all of those before are shown. -/
def Uncrowded : Prop :=
  (∀ item ∈ (orderedRows lib user input st).drop (min input.askedLimit 500),
      isShown lib user input item = false) ∨
    min input.askedLimit 500 = input.askedLimit ∧
      ∀ item ∈ (orderedRows lib user input st).take (min input.askedLimit 500),
        isShown lib user input item = true

/-- The ranking that returns all candidates. -/
def Ranking.all : Ranking N := ⟨id, fun candidates => (List.Perm.refl candidates).subperm⟩

/-- What a retrieval ranks: the memories that it returns when all of them are. -/
def consideredMemories (now : Int) (context : MemoryContext) (includeInactive : Bool) :
    List (MemoryItem N) :=
  (retrieveMemories lib now user context includeInactive .all st).2

/-- A retrieval considers the first of the visible memories, up to `MAX_CANDIDATES`. -/
def ConsidersFirst (now : Int) (context : MemoryContext) (includeInactive : Bool) : Prop :=
  FirstOf beforeInList 800 (matchingMemories lib user (.all context includeInactive 800) st)
    (consideredMemories lib user st now context includeInactive)

variable {lib user input st}

omit [JsNumber N] in
theorem selectMemories_eq :
    selectMemories lib user input st = (orderedRows lib user input st).take (min input.askedLimit 500) := by
  have hcut : max 1 (min (if input.limit = 0 then 200 else input.limit) 500) =
      min input.askedLimit 500 := by
    rw [ListInput.askedLimit]
    split
    · rfl
    · omega
  show List.take (max 1 (min (if input.limit = 0 then 200 else input.limit) 500)) _ = _
  rw [hcut]
  rfl

theorem listedMemories_eq :
    listedMemories lib user input st =
      ((orderedRows lib user input st).take (min input.askedLimit 500)).filter (isShown lib user input) := by
  rw [listedMemories, selectMemories_eq]
  split
  · rename_i hquery
    refine List.filter_congr fun item _ => ?_
    simp [isShown, hquery]
  · rename_i hquery
    rw [List.filter_filter]
    refine List.filter_congr fun item _ => ?_
    simp [isShown, hquery, Bool.and_comm]

omit [JsNumber N] in
theorem beforeInList_trans (a b c : MemoryItem N) (hab : beforeInList a b = true)
    (hbc : beforeInList b c = true) : beforeInList a c = true := by
  unfold beforeInList at *
  grind

omit [JsNumber N] in
theorem beforeInList_total (a b : MemoryItem N) : (beforeInList a b || beforeInList b a) = true := by
  unfold beforeInList
  grind

variable (input) in
theorem showsFirst_iff : ShowsFirst lib user input st ↔ Uncrowded lib user input st := by
  have hperm := lib.order.perm beforeInList (st.items.filter (isSelected user input))
  have hsorted := lib.order.sorted beforeInList (st.items.filter (isSelected user input))
    beforeInList_trans beforeInList_total
  rw [ShowsFirst, listedMemories_eq]
  exact firstOf_filter_take_iff hperm hsorted _ (min_le_left _ _)

/-- **When a list shows, and a retrieval considers, the first of the memories that match.** -/
theorem showsFirst_considersFirst_iff (lib : MemoryLibrary N) (user : AuthenticatedUser)
    (st : Store N) :
    (∀ input, ShowsFirst lib user input st ↔ Uncrowded lib user input st) ∧
      ∀ now context includeInactive, ConsidersFirst lib user st now context includeInactive ↔
        Uncrowded lib user (.all context includeInactive 800) st :=
  ⟨fun input => showsFirst_iff input, fun _ context includeInactive =>
    showsFirst_iff (.all context includeInactive 800)⟩

/-! ### A memory of another user -/

section Examples

/-- A private memory of each of two users. -/
def twoUsersStore : Store Int :=
  perform promptLibrary 1 keptStore (.create stranger (JsText.of "2") (plainInput "db up" 2 0))

/-- The memory of the other user comes first, and is all that a list of one row gets. -/
theorem not_showsFirst_stranger : ¬ ∀ (user : AuthenticatedUser) (input : ListInput) (st : Store Int),
    ShowsFirst promptLibrary user input st := by
  intro h
  have hlength := (h stranger (.all .none true 1) twoUsersStore).length
  revert hlength
  decide +kernel

end Examples

end AgentService
