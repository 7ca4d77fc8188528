import BoringPanel.AgentService.Memory.Frame
import BoringPanel.Lib.Runs

/-!
# Concurrent hydrations

Two calls of `hydrateMemories` and one of `forgetMemory` for one memory, statement by statement. The
chunks are replaced by a DELETE and one INSERT for each chunk; these must not overlap with those of
another call or with the DELETE of `forgetMemory`, and not begin after it (`neverMixed_of_run`).

The audit events, the record and the final read of `forgetMemory` write no chunks and are left out.
-/

namespace AgentService

inductive Caller where
  | first
  | second
  | forget
deriving DecidableEq

/-- What a call does next. -/
inductive Stage (N : Type) where
  /-- reads the row of the memory -/
  | fetch
  /-- reads the chunks, after the row -/
  | check (item : MemoryItem N)
  /-- deletes the chunks, after new ones have been built -/
  | clear (memoryId : JsText) (chunks : List MemoryChunk)
  /-- inserts a chunk, and then others -/
  | insert (chunk : MemoryChunk) (rest : List MemoryChunk)
  /-- erases the memory -/
  | update
  /-- deletes the chunks of the erased memory -/
  | delete
  | done
  | failed

/-- The row of the memory, the table of chunks, and the calls. -/
structure HydrationState (N : Type) where
  row : MemoryItem N
  chunks : List MemoryChunk
  stage : Caller → Stage N

section Calls

variable {N : Type}

/-- After its hydration `forgetMemory` goes on. -/
def Caller.finish : Caller → Stage N
  | .forget => .update
  | _ => .done

/-- The chunks that are still to be inserted. -/
def Caller.insert (c : Caller) : List MemoryChunk → Stage N
  | [] => c.finish
  | chunk :: rest => .insert chunk rest

/-- The primary key and `UNIQUE(memory_id, chunk_index)`. -/
def isRefused (chunks : List MemoryChunk) (chunk : MemoryChunk) : Bool :=
  chunks.any fun other => other.id = chunk.id ∨
    other.memoryId = chunk.memoryId ∧ other.index = chunk.index

/-- The chunks of a memory. -/
def chunksOf (memoryId : JsText) (chunks : List MemoryChunk) : List MemoryChunk :=
  chunks.filter fun chunk => chunk.memoryId = memoryId

/-- The chunks of other memories. -/
def withoutChunks (memoryId : JsText) (chunks : List MemoryChunk) : List MemoryChunk :=
  chunks.filter fun chunk => chunk.memoryId ≠ memoryId

namespace HydrationState

/-- The start of two hydrations, with or without a `forgetMemory`. -/
def start (row : MemoryItem N) (chunks : List MemoryChunk) (withForget : Bool) : HydrationState N where
  row := row
  chunks := chunks
  stage
    | .forget => if withForget then .fetch else .done
    | _ => .fetch

variable [JsNumber N] (lib : MemoryLibrary N) (s : HydrationState N)

omit [JsNumber N] in
def enter (c : Caller) (stage : Stage N) : HydrationState N :=
  { s with stage := Function.update s.stage c stage }

/-- The next statement of a call, at a time. -/
def next (a : Caller × Int) : HydrationState N :=
  match s.stage a.1 with
  | .fetch => s.enter a.1 (.check s.row)
  | .check item =>
    if item.status ≠ .forgotten ∧ item.id ∉ s.chunks.map MemoryChunk.memoryId then
      s.enter a.1 (.clear item.id (buildMemoryChunks lib.toTexts a.2 item.chunkInput))
    else s.enter a.1 a.1.finish
  | .clear memoryId chunks =>
    { s with chunks := withoutChunks memoryId s.chunks }.enter a.1 (a.1.insert chunks)
  | .insert chunk rest =>
    if isRefused s.chunks chunk then s.enter a.1 .failed
    else { s with chunks := s.chunks ++ [chunk] }.enter a.1 (a.1.insert rest)
  | .update => { s with row := MemoryItem.forget lib a.2 s.row }.enter a.1 .delete
  | .delete => { s with chunks := withoutChunks s.row.id s.chunks }.enter a.1 .done
  | .done => s
  | .failed => s

/-- One statement. -/
def Step (s : HydrationState N) (a : Caller × Int) (s' : HydrationState N) : Prop := s' = s.next lib a

/-- No call fails, and when all are done, the chunks are those of the memory. -/
structure Consistent : Prop where
  succeed : ∀ c, s.stage c ≠ .failed
  chunks : (∀ c, s.stage c = .done) →
    if s.row.status = .forgotten then chunksOf s.row.id s.chunks = []
    else ∃ now, chunksOf s.row.id s.chunks = buildMemoryChunks lib.toTexts now s.row.chunkInput

omit [JsNumber N] in
/-- A call is inserting chunks. -/
def isOpen (c : Caller) : Bool :=
  match s.stage c with
  | .insert _ _ => true
  | _ => false

omit [JsNumber N] in
def anyOpen : Bool := s.isOpen .first || s.isOpen .second || s.isOpen .forget

omit [JsNumber N] in
/-- The memory is erased, and so are its chunks. -/
def isErased : Bool :=
  match s.row.status, s.stage .forget with
  | .forgotten, .delete => false
  | .forgotten, _ => true
  | _, _ => false

omit [JsNumber N] in
/-- The condition on a step: nothing is deleted while a call inserts chunks, and no insertion begins
after the memory has been erased. -/
def mayGo (a : Caller × Int) : Bool :=
  match s.stage a.1 with
  | .clear _ chunks => chunks = [] ∨ s.isErased = false ∧ s.anyOpen = false
  | .delete => !s.anyOpen
  | _ => true

end HydrationState

end Calls

/-! ### Chunks of one memory -/

section Tables

variable {id : JsText} {chunks : List MemoryChunk} {chunk : MemoryChunk}

theorem chunksOf_withoutChunks : chunksOf id (withoutChunks id chunks) = [] := by
  rw [chunksOf, withoutChunks, List.filter_filter, List.filter_eq_nil_iff]
  intro chunk _
  simp

theorem mem_withoutChunks : chunk ∈ withoutChunks id chunks ↔ chunk ∈ chunks ∧ chunk.memoryId ≠ id := by
  rw [withoutChunks, List.mem_filter, decide_eq_true_eq]

theorem chunksOf_append : chunksOf id (chunks ++ [chunk]) =
    chunksOf id chunks ++ if chunk.memoryId = id then [chunk] else [] := by
  rw [chunksOf, List.filter_append, chunksOf]
  by_cases h : chunk.memoryId = id
  · simp [h]
  · simp [h]

theorem mem_chunksOf : chunk ∈ chunksOf id chunks ↔ chunk ∈ chunks ∧ chunk.memoryId = id := by
  rw [chunksOf, List.mem_filter, decide_eq_true_eq]

end Tables

/-! ### What every statement keeps -/

section Sound

variable {N : Type} [JsNumber N] (lib : MemoryLibrary N) (row : MemoryItem N) (chunks : List MemoryChunk)

/-- The chunks of the memory have different identifiers, which no other chunk has. -/
structure DistinctIds : Prop where
  nodup : ((buildMemoryChunks lib.toTexts 0 row.chunkInput).map MemoryChunk.id).Nodup
  fresh : ∀ chunk ∈ chunks, chunk.id ∉ (buildMemoryChunks lib.toTexts 0 row.chunkInput).map MemoryChunk.id

namespace HydrationState

/-- What a call knows, given the row as it is now. -/
def StageSound (current : MemoryItem N) (c : Caller) : Stage N → Prop
  | .check item => item = row ∨ item.status = .forgotten ∧ current.status = .forgotten
  | .clear memoryId chunks =>
    memoryId = row.id ∧ ∃ now, chunks = buildMemoryChunks lib.toTexts now row.chunkInput
  | .update => c = .forget
  | .delete => c = .forget ∧ current.status = .forgotten
  | .failed => False
  | _ => True

/-- How far the chunks have been written, before the memory is erased. -/
inductive Progress (s : HydrationState N) : Prop
  | before (hnone : chunksOf row.id s.chunks = []) (hclosed : ∀ c, s.isOpen c = false)
      (hpending : s.row.status ≠ .forgotten → s.stage .first ≠ .done)
  | during {c chunk rest now} (hstage : s.stage c = .insert chunk rest)
      (hbuilt : buildMemoryChunks lib.toTexts now row.chunkInput =
        chunksOf row.id s.chunks ++ chunk :: rest)
      (hothers : ∀ c', c' ≠ c → s.isOpen c' = false)
  | after {now} (hall : chunksOf row.id s.chunks = buildMemoryChunks lib.toTexts now row.chunkInput)
      (hclosed : ∀ c, s.isOpen c = false)

structure Sound (s : HydrationState N) : Prop where
  current : s.row = row ∨ s.row.id = row.id ∧ s.row.status = .forgotten
  others : ∀ chunk ∈ s.chunks, chunk.memoryId ≠ row.id → chunk ∈ chunks
  stage : ∀ c, StageSound lib row s.row c (s.stage c)
  erased : s.isErased = true → chunksOf row.id s.chunks = [] ∧ ∀ c, s.isOpen c = false
  progress : s.isErased = false → Progress lib row s

variable {lib row chunks} {s : HydrationState N} {c c' : Caller} {st : Stage N} {now : Int}

omit [JsNumber N] in
@[simp] theorem stage_enter_self : (s.enter c st).stage c = st := Function.update_self ..

omit [JsNumber N] in
theorem stage_enter_of_ne (h : c' ≠ c) : (s.enter c st).stage c' = s.stage c' :=
  Function.update_of_ne h ..

omit [JsNumber N] in
theorem isErased_iff : s.isErased = true ↔ s.row.status = .forgotten ∧ s.stage .forget ≠ .delete := by
  rw [isErased]
  cases hrow : s.row.status with
  | forgotten =>
    cases hstage : s.stage .forget with
    | _ => simp
  | _ => simp

omit [JsNumber N] in
theorem isOpen_of_ne (h : ∀ chunk rest, s.stage c ≠ .insert chunk rest) : s.isOpen c = false := by
  rw [isOpen]
  split
  · rename_i chunk rest hstage
    exact absurd hstage (h chunk rest)
  · rfl

omit [JsNumber N] in
theorem not_open_of_insert {chunk : MemoryChunk} {rest : List MemoryChunk}
    (h : s.stage c = .insert chunk rest) : s.isOpen c = true := by
  rw [isOpen, h]

omit [JsNumber N] in
theorem isOpen_enter_of_ne (h : c' ≠ c) : (s.enter c st).isOpen c' = s.isOpen c' := by
  rw [isOpen, isOpen, stage_enter_of_ne h]

omit [JsNumber N] in
/-- Only the last statement of `forgetMemory` erases the memory. -/
theorem isErased_enter (h : s.stage c ≠ .delete) (h' : st ≠ .delete) :
    (s.enter c st).isErased = s.isErased := by
  rw [Bool.eq_iff_iff, isErased_iff, isErased_iff]
  refine and_congr_right fun _ => ?_
  by_cases hc : .forget = c
  · subst hc
    rw [stage_enter_self]
    exact iff_of_true h' h
  · rw [stage_enter_of_ne hc]

theorem Sound.id_eq (h : Sound lib row chunks s) : s.row.id = row.id :=
  h.current.elim (congrArg MemoryItem.id) And.left

/-- A call goes on that neither inserts nor deletes. -/
theorem Sound.move (h : Sound lib row chunks s) (hclosed : s.isOpen c = false)
    (hdelete : s.stage c ≠ .delete) (hnew : StageSound lib row s.row c st)
    (hclosed' : ∀ chunk rest, st ≠ .insert chunk rest) (hdelete' : st ≠ .delete)
    (hdone : st = .done → s.row.status = .forgotten ∨ chunksOf row.id s.chunks ≠ []) :
    Sound lib row chunks (s.enter c st) := by
  have hopen : ∀ c', (s.enter c st).isOpen c' = s.isOpen c' := by
    intro c'
    by_cases hc : c' = c
    · subst hc
      rw [hclosed]
      refine isOpen_of_ne fun chunk rest => ?_
      rw [stage_enter_self]
      exact hclosed' chunk rest
    · exact isOpen_enter_of_ne hc
  have herased : (s.enter c st).isErased = s.isErased := isErased_enter hdelete hdelete'
  refine ⟨h.current, h.others, fun c' => ?_, fun he => ?_, fun he => ?_⟩
  · by_cases hc : c' = c
    · subst hc
      rw [stage_enter_self]
      exact hnew
    · rw [stage_enter_of_ne hc]
      exact h.stage c'
  · obtain ⟨hnone, hall⟩ := h.erased (herased ▸ he)
    exact ⟨hnone, fun c' => (hopen c').trans (hall c')⟩
  · cases h.progress (herased ▸ he) with
    | before hnone hall hpending =>
      refine .before hnone (fun c' => (hopen c').trans (hall c')) fun hstatus => ?_
      by_cases hc : .first = c
      · subst hc
        rw [stage_enter_self]
        exact fun hst => (hdone hst).elim hstatus fun hsome => hsome hnone
      · rw [stage_enter_of_ne hc]
        exact hpending hstatus
    | @during c₁ chunk rest now hstage hbuilt hothers =>
      have hc : c₁ ≠ c := by
        rintro rfl
        rw [not_open_of_insert hstage] at hclosed
        cases hclosed
      exact .during ((stage_enter_of_ne hc).trans hstage) hbuilt fun c' hc' =>
        (hopen c').trans (hothers c' hc')
    | after hall hclosed => exact .after hall fun c' => (hopen c').trans (hclosed c')

theorem sound_fetch (h : Sound lib row chunks s) (hstage : s.stage c = .fetch) :
    Sound lib row chunks (s.enter c (.check s.row)) := by
  refine h.move (isOpen_of_ne ?_) ?_ ?_ ?_ ?_ ?_
  · simp [hstage]
  · simp [hstage]
  · exact h.current.imp id fun hforgotten => ⟨hforgotten.2, hforgotten.2⟩
  · simp
  · simp
  · simp

omit [JsNumber N] in
theorem finish_ne (c : Caller) : (∀ chunk rest, (c.finish : Stage N) ≠ .insert chunk rest) ∧
    (c.finish : Stage N) ≠ .delete := by
  cases c with
  | _ => simp [Caller.finish]

theorem stageSound_finish (current : MemoryItem N) : StageSound lib row current c c.finish := by
  cases c with
  | first => trivial
  | second => trivial
  | forget => rfl

omit [JsNumber N] in
theorem insert_ne_delete (c : Caller) (built : List MemoryChunk) : (c.insert built : Stage N) ≠ .delete := by
  cases built with
  | nil => exact (finish_ne c).2
  | cons chunk rest => simp [Caller.insert]

/-- A call that has written goes on with the chunks that are left. -/
theorem stages_insert (h : Sound lib row chunks s) (written built : List MemoryChunk) (c' : Caller) :
    StageSound lib row s.row c'
      ((HydrationState.enter { s with chunks := written } c (c.insert built)).stage c') := by
  by_cases hc : c' = c
  · subst hc
    rw [stage_enter_self]
    cases built with
    | nil => exact stageSound_finish _
    | cons chunk rest => trivial
  · rw [stage_enter_of_ne hc]
    exact h.stage c'

/-- The chunks that are written when a call goes on, and no other is inserting. -/
theorem progress_insert {written built : List MemoryChunk} {at' : Int}
    (hbuilt : buildMemoryChunks lib.toTexts at' row.chunkInput = chunksOf row.id written ++ built)
    (hothers : ∀ c', c' ≠ c → s.isOpen c' = false) :
    Progress lib row (HydrationState.enter { s with chunks := written } c (c.insert built)) := by
  have hothers' : ∀ c', c' ≠ c → (HydrationState.enter { s with chunks := written } c
      (c.insert built)).isOpen c' = false := fun c' hc => (isOpen_enter_of_ne hc).trans (hothers c' hc)
  cases built with
  | nil =>
    rw [List.append_nil] at hbuilt
    refine .after hbuilt.symm fun c' => ?_
    by_cases hc : c' = c
    · subst hc
      refine isOpen_of_ne fun chunk rest => ?_
      rw [stage_enter_self]
      exact (finish_ne c').1 chunk rest
    · exact hothers' c' hc
  | cons chunk rest => exact .during stage_enter_self hbuilt hothers'

theorem sound_check (h : Sound lib row chunks s) {item : MemoryItem N} (hstage : s.stage c = .check item) :
    Sound lib row chunks (s.next lib (c, now)) := by
  have hclosed : s.isOpen c = false := isOpen_of_ne (by simp [hstage])
  have hdelete : s.stage c ≠ .delete := by simp [hstage]
  have hitem : item = row ∨ item.status = .forgotten ∧ s.row.status = .forgotten := by
    have := h.stage c
    rw [hstage] at this
    exact this
  rw [next, hstage]
  dsimp only
  split
  · rename_i hmissing
    obtain rfl := hitem.resolve_right fun hforgotten => hmissing.1 hforgotten.1
    exact h.move hclosed hdelete ⟨rfl, now, rfl⟩ (by simp) (by simp) (by simp)
  · rename_i hpresent
    refine h.move hclosed hdelete (stageSound_finish _) (finish_ne c).1 (finish_ne c).2 fun _ => ?_
    rcases hitem with rfl | ⟨-, hforgotten⟩
    · by_cases hstatus : item.status = .forgotten
      · exact .inl (h.current.elim (fun heq => heq ▸ hstatus) And.right)
      · have hmem := not_not.mp (not_and.mp hpresent hstatus)
        obtain ⟨chunk, hchunk, hid⟩ := List.mem_map.mp hmem
        exact .inr (List.ne_nil_of_mem (mem_chunksOf.mpr ⟨hchunk, hid⟩))
    · exact .inl hforgotten

omit [JsNumber N] in
theorem closed_of_anyOpen (h : s.anyOpen = false) (c : Caller) : s.isOpen c = false := by
  rw [anyOpen, Bool.or_eq_false_iff, Bool.or_eq_false_iff] at h
  cases c with
  | first => exact h.1.1
  | second => exact h.1.2
  | forget => exact h.2

/-- A memory without chunks has none at any time. -/
theorem built_eq_nil {now' : Int} (h : buildMemoryChunks lib.toTexts now row.chunkInput = []) :
    buildMemoryChunks lib.toTexts now' row.chunkInput = [] := by
  rw [buildMemoryChunks_builtAt now, h]
  rfl

theorem sound_clear (h : Sound lib row chunks s) {memoryId : JsText} {built : List MemoryChunk}
    (hstage : s.stage c = .clear memoryId built)
    (hmay : built = [] ∨ s.isErased = false ∧ s.anyOpen = false) :
    Sound lib row chunks (s.next lib (c, now)) := by
  obtain ⟨rfl, at', hbuilt⟩ : memoryId = row.id ∧
      ∃ now, built = buildMemoryChunks lib.toTexts now row.chunkInput := by
    have := h.stage c
    rw [hstage] at this
    exact this
  -- no call is inserting: if there is nothing to be inserted, there is nothing for the others
  have hclosed : ∀ c', s.isOpen c' = false := by
    rcases hmay with hnil | ⟨-, hopen⟩
    · cases herased : s.isErased with
      | true => exact (h.erased herased).2
      | false => cases h.progress herased with
        | before _ hall _ => exact hall
        | during _ hmore _ =>
          rw [built_eq_nil (hbuilt.symm.trans hnil)] at hmore
          exact absurd hmore.symm (List.append_ne_nil_of_right_ne_nil _ (List.cons_ne_nil _ _))
        | after _ hall => exact hall
    · exact closed_of_anyOpen hopen
  have herased : (HydrationState.enter { s with chunks := withoutChunks row.id s.chunks } c
      (c.insert built)).isErased = s.isErased :=
    isErased_enter (by simp [hstage]) (insert_ne_delete c built)
  have hprogress : Progress lib row (HydrationState.enter
      { s with chunks := withoutChunks row.id s.chunks } c (c.insert built)) := by
    have hwritten : buildMemoryChunks lib.toTexts at' row.chunkInput =
        chunksOf row.id (withoutChunks row.id s.chunks) ++ built := by
      rw [chunksOf_withoutChunks, List.nil_append, hbuilt]
    exact progress_insert hwritten fun c' _ => hclosed c'
  rw [next, hstage]
  refine ⟨h.current, fun chunk hchunk => h.others chunk (mem_withoutChunks.mp hchunk).1,
    stages_insert h _ built, fun he => ?_, fun _ => hprogress⟩
  -- nothing is inserted into an erased memory
  rcases hmay with rfl | ⟨hnot, -⟩
  · refine ⟨chunksOf_withoutChunks, fun c' => ?_⟩
    by_cases hc : c' = c
    · subst hc
      refine isOpen_of_ne fun chunk rest => ?_
      rw [stage_enter_self]
      exact (finish_ne c').1 chunk rest
    · exact (isOpen_enter_of_ne hc).trans (hclosed c')
  · rw [herased, hnot] at he
    cases he

theorem memoryId_of_built {written rest : List MemoryChunk} {chunk : MemoryChunk}
    (hbuilt : buildMemoryChunks lib.toTexts now row.chunkInput = written ++ chunk :: rest) :
    chunk.memoryId = row.id := by
  have hnumbered : Numbered row.id (buildMemoryChunks lib.toTexts now row.chunkInput) :=
    numbered_buildMemoryChunks row.chunkInput
  refine hnumbered.memoryId chunk ?_
  rw [hbuilt]
  exact List.mem_append_right _ List.mem_cons_self

/-- A chunk that is still to be inserted is not refused. -/
theorem not_isRefused (h : Sound lib row chunks s) (hids : DistinctIds lib row chunks)
    {chunk : MemoryChunk} {rest : List MemoryChunk}
    (hbuilt : buildMemoryChunks lib.toTexts now row.chunkInput =
      chunksOf row.id s.chunks ++ chunk :: rest) : isRefused s.chunks chunk = false := by
  have hid : chunk.memoryId = row.id := memoryId_of_built hbuilt
  have hnumbered : Numbered row.id (buildMemoryChunks lib.toTexts now row.chunkInput) :=
    numbered_buildMemoryChunks row.chunkInput
  rw [hbuilt] at hnumbered
  have hindex : ((chunksOf row.id s.chunks ++ chunk :: rest).map MemoryChunk.index).Nodup := by
    rw [hnumbered.index]
    exact List.nodup_range
  have hnodup : ((chunksOf row.id s.chunks ++ chunk :: rest).map MemoryChunk.id).Nodup := by
    rw [← hbuilt, ids_buildMemoryChunks 0 now]
    exact hids.nodup
  rw [List.map_append, List.map_cons] at hindex hnodup
  rw [isRefused, List.any_eq_false]
  intro other hother
  rw [decide_eq_true_eq, not_or]
  by_cases hmemory : other.memoryId = row.id
  · have hmem : other ∈ chunksOf row.id s.chunks := mem_chunksOf.mpr ⟨hother, hmemory⟩
    refine ⟨fun heq => ?_, fun hsame => ?_⟩
    · exact (List.nodup_append.mp hnodup).2.2 _ (List.mem_map_of_mem hmem) _ List.mem_cons_self heq
    · exact (List.nodup_append.mp hindex).2.2 _ (List.mem_map_of_mem hmem) _ List.mem_cons_self hsame.2
  · refine ⟨fun heq => ?_, fun hsame => hmemory (hsame.1.trans hid)⟩
    refine hids.fresh other (h.others other hother hmemory) ?_
    rw [heq, ids_buildMemoryChunks now 0, hbuilt, List.map_append]
    exact List.mem_append_right _ List.mem_cons_self

theorem sound_insert (h : Sound lib row chunks s) (hids : DistinctIds lib row chunks)
    {chunk : MemoryChunk} {rest : List MemoryChunk} (hstage : s.stage c = .insert chunk rest) :
    Sound lib row chunks (s.next lib (c, now)) := by
  have hopen : s.isOpen c = true := not_open_of_insert hstage
  have hnot : s.isErased = false := by
    cases herased : s.isErased with
    | false => rfl
    | true =>
      rw [(h.erased herased).2 c] at hopen
      cases hopen
  cases h.progress hnot with
  | before _ hall _ =>
    rw [hall c] at hopen
    cases hopen
  | after _ hall =>
    rw [hall c] at hopen
    cases hopen
  | @during c₁ chunk₁ rest₁ at' hstage₁ hbuilt hothers =>
    -- the call that inserts is this one
    obtain rfl : c₁ = c := by
      by_contra hne
      rw [hothers c (Ne.symm hne)] at hopen
      cases hopen
    obtain ⟨rfl, rfl⟩ : chunk₁ = chunk ∧ rest₁ = rest := by
      rw [hstage] at hstage₁
      cases hstage₁
      exact ⟨rfl, rfl⟩
    have hid : chunk₁.memoryId = row.id := memoryId_of_built hbuilt
    have hwritten : buildMemoryChunks lib.toTexts at' row.chunkInput =
        chunksOf row.id (s.chunks ++ [chunk₁]) ++ rest₁ := by
      rw [chunksOf_append, if_pos hid, List.append_assoc, hbuilt]
      rfl
    have herased : (HydrationState.enter { s with chunks := s.chunks ++ [chunk₁] } c₁
        (c₁.insert rest₁)).isErased = s.isErased :=
      isErased_enter (by simp [hstage]) (insert_ne_delete c₁ rest₁)
    rw [next, hstage]
    dsimp only
    rw [not_isRefused h hids hbuilt]
    refine ⟨h.current, fun other hother hne => ?_, stages_insert h _ rest₁, fun he => ?_,
      fun _ => progress_insert hwritten hothers⟩
    · rcases List.mem_append.mp hother with hother | hother
      · exact h.others other hother hne
      · rw [List.mem_singleton.mp hother] at hne
        exact absurd hid hne
    · rw [if_neg Bool.false_ne_true, herased, hnot] at he
      cases he

/-- What a call knows does not change when the memory is erased. -/
theorem StageSound.erase {current current' : MemoryItem N} (h : StageSound lib row current c st)
    (hforgotten : current'.status = .forgotten) : StageSound lib row current' c st := by
  cases st with
  | check item => exact h.imp_right fun hitem => ⟨hitem.1, hforgotten⟩
  | delete => exact ⟨h.1, hforgotten⟩
  | _ => exact h

theorem sound_update (h : Sound lib row chunks s) (hstage : s.stage c = .update) :
    Sound lib row chunks (s.next lib (c, now)) := by
  obtain rfl : c = .forget := by
    have := h.stage c
    rw [hstage] at this
    exact this
  let forgotten := MemoryItem.forget lib now s.row
  have hstatus : forgotten.status = .forgotten := rfl
  have hopen : ∀ c', (HydrationState.enter { s with row := forgotten } .forget .delete).isOpen c' =
      s.isOpen c' := by
    intro c'
    by_cases hc : c' = .forget
    · subst hc
      rw [isOpen, isOpen, stage_enter_self, hstage]
    · exact isOpen_enter_of_ne hc
  rw [next, hstage]
  refine ⟨.inr ⟨h.id_eq, hstatus⟩, h.others, fun c' => ?_, fun he => ?_, fun _ => ?_⟩
  · by_cases hc : c' = .forget
    · subst hc
      rw [stage_enter_self]
      exact ⟨rfl, hstatus⟩
    · rw [stage_enter_of_ne hc]
      exact (h.stage c').erase hstatus
  · exact absurd stage_enter_self (isErased_iff.mp he).2
  · cases herased : s.isErased with
    | true =>
      obtain ⟨hnone, hall⟩ := h.erased herased
      exact .before hnone (fun c' => (hopen c').trans (hall c')) fun hne => absurd hstatus hne
    | false => cases h.progress herased with
      | before hnone hall _ =>
        exact .before hnone (fun c' => (hopen c').trans (hall c')) fun hne => absurd hstatus hne
      | @during c₁ chunk rest at' hstage₁ hbuilt hothers =>
        have hc : c₁ ≠ .forget := by
          rintro rfl
          rw [hstage] at hstage₁
          cases hstage₁
        exact .during ((stage_enter_of_ne hc).trans hstage₁) hbuilt fun c' hc' =>
          (hopen c').trans (hothers c' hc')
      | after hall hclosed => exact .after hall fun c' => (hopen c').trans (hclosed c')

theorem sound_delete (h : Sound lib row chunks s) (hstage : s.stage c = .delete)
    (hmay : s.anyOpen = false) : Sound lib row chunks (s.next lib (c, now)) := by
  obtain ⟨rfl, hstatus⟩ : c = .forget ∧ s.row.status = .forgotten := by
    have := h.stage c
    rw [hstage] at this
    exact this
  have hclosed : ∀ c', (HydrationState.enter { s with chunks := withoutChunks s.row.id s.chunks } .forget
      .done).isOpen c' = false := by
    intro c'
    by_cases hc : c' = .forget
    · subst hc
      rw [isOpen, stage_enter_self]
    · exact (isOpen_enter_of_ne hc).trans (closed_of_anyOpen hmay c')
  have hnone : chunksOf row.id (withoutChunks s.row.id s.chunks) = [] := by
    rw [h.id_eq, chunksOf_withoutChunks]
  rw [next, hstage]
  refine ⟨h.current, fun chunk hchunk => h.others chunk (mem_withoutChunks.mp hchunk).1, fun c' => ?_,
    fun _ => ⟨hnone, hclosed⟩, fun _ => .before hnone hclosed fun hne => absurd hstatus hne⟩
  by_cases hc : c' = .forget
  · subst hc
    rw [stage_enter_self]
    trivial
  · rw [stage_enter_of_ne hc]
    exact h.stage c'

/-- **Each statement keeps what has been said**, if it may go. -/
theorem Sound.step (h : Sound lib row chunks s) (hids : DistinctIds lib row chunks) {a : Caller × Int}
    (hmay : s.mayGo a = true) : Sound lib row chunks (s.next lib a) := by
  obtain ⟨c, now⟩ := a
  cases hstage : s.stage c with
  | fetch =>
    rw [next, hstage]
    exact sound_fetch h hstage
  | check item => exact sound_check h hstage
  | clear memoryId built =>
    rw [mayGo, hstage] at hmay
    exact sound_clear h hstage (of_decide_eq_true hmay)
  | insert chunk rest => exact sound_insert h hids hstage
  | update => exact sound_update h hstage
  | delete =>
    rw [mayGo, hstage] at hmay
    exact sound_delete h hstage (by simpa using hmay)
  | done =>
    rw [next, hstage]
    exact h
  | failed =>
    have := h.stage c
    rw [hstage] at this
    exact this.elim

theorem Sound.consistent (h : Sound lib row chunks s) : s.Consistent lib := by
  refine ⟨fun c hfailed => ?_, fun hdone => ?_⟩
  · have := h.stage c
    rw [hfailed] at this
    exact this
  · have hdelete : s.stage .forget ≠ .delete := by simp [hdone]
    split
    · rename_i hstatus
      rw [h.id_eq]
      exact (h.erased (isErased_iff.mpr ⟨hstatus, hdelete⟩)).1
    · rename_i hstatus
      have hrow : s.row = row := h.current.resolve_right fun hforgotten => hstatus hforgotten.2
      have hnot : s.isErased = false := by
        rw [Bool.eq_false_iff]
        exact fun herased => hstatus (isErased_iff.mp herased).1
      cases h.progress hnot with
      | before _ _ hpending => exact absurd (hdone .first) (hpending hstatus)
      | @during c _ _ _ hstage _ _ =>
        rw [hdone c] at hstage
        cases hstage
      | @after now hall _ => exact ⟨now, by rw [hrow, hall]⟩

theorem sound_start (hnone : ∀ chunk ∈ chunks, chunk.memoryId ≠ row.id) (withForget : Bool) :
    Sound lib row chunks (start row chunks withForget) := by
  have hempty : chunksOf row.id chunks = [] := by
    rw [chunksOf, List.filter_eq_nil_iff]
    intro chunk hchunk
    simpa using hnone chunk hchunk
  have hstage : ∀ c, (start row chunks withForget).stage c = .fetch ∨
      (start row chunks withForget).stage c = .done := by
    intro c
    cases c with
    | first => exact .inl rfl
    | second => exact .inl rfl
    | forget =>
      cases withForget with
      | true => exact .inl rfl
      | false => exact .inr rfl
  have hclosed : ∀ c, (start row chunks withForget).isOpen c = false := by
    intro c
    rw [isOpen]
    rcases hstage c with h | h
    · rw [h]
    · rw [h]
  refine ⟨.inl rfl, fun chunk hchunk _ => hchunk, fun c => ?_, fun _ => ⟨hempty, hclosed⟩, fun _ =>
    .before hempty hclosed fun _ hdone => nomatch hdone⟩
  rcases hstage c with h | h
  · rw [h]
    trivial
  · rw [h]
    trivial

/-- **The chunks are those of the memory** after every run whose deletions do not overlap with the
insertions of another call. -/
theorem neverMixed_of_run {as : List (Caller × Int)} {withForget : Bool}
    (hnone : ∀ chunk ∈ chunks, chunk.memoryId ≠ row.id) (hids : DistinctIds lib row chunks)
    (h : Run (Guarded (Step lib) fun s a => s.mayGo a = true) (start row chunks withForget) as s) :
    s.Consistent lib := by
  have hsound : Sound lib row chunks s := by
    refine h.invariant (sound_start hnone withForget) fun t a u ht hstep => ?_
    rw [show u = t.next lib a from hstep.1]
    exact ht.step hids hstep.2
  exact hsound.consistent

end HydrationState

end Sound

/-! ### Two calls at once -/

section Examples

open HydrationState

/-- A memory that has not been read yet. -/
def newMemory : MemoryItem Int := (plainInput "db down" 1 0).row promptLibrary 0 keeper (JsText.of "1")

/-- One hydration after the other, and then the memory is forgotten. -/
def inTurns : List (Caller × Int) :=
  List.replicate 5 (.first, 1) ++ List.replicate 2 (.second, 2) ++ List.replicate 4 (.forget, 3)

theorem distinctIds_newMemory : DistinctIds promptLibrary newMemory [] :=
  ⟨by decide +kernel, List.forall_mem_nil _⟩

theorem neverMixed_of_run_inTurns :
    (inTurns.foldl (next promptLibrary) (start newMemory [] true)).Consistent promptLibrary :=
  neverMixed_of_run (List.forall_mem_nil _) distinctIds_newMemory
    (.of_allowed (fun _ _ => Eq.refl _) (by decide +kernel))

def isFailed (s : HydrationState Int) (c : Caller) : Bool :=
  match s.stage c with
  | .failed => true
  | _ => false

theorem eq_failed_of_isFailed {s : HydrationState Int} {c : Caller} (h : isFailed s c = true) :
    s.stage c = .failed := by
  rw [isFailed] at h
  split at h
  · assumption
  · cases h

/-- Both hydrations read that there are no chunks, and delete them. -/
def atOnce : List (Caller × Int) :=
  List.replicate 3 (.first, 1) ++ List.replicate 3 (.second, 1) ++ [(.first, 1), (.second, 1)]

/-- The second call inserts a chunk that is there already, and fails. -/
theorem not_consistent_atOnce : ¬ ∀ (as : List (Caller × Int)) (s : HydrationState Int),
    Run (Step promptLibrary) (start newMemory [] false) as s → s.Consistent promptLibrary := by
  intro h
  have hrun : Run (Step promptLibrary) (start newMemory [] false) atOnce
      (atOnce.foldl (next promptLibrary) (start newMemory [] false)) :=
    .of_foldl fun _ _ => Eq.refl _
  have hfailed : isFailed (atOnce.foldl (next promptLibrary) (start newMemory [] false)) .second = true := by
    decide +kernel
  exact (h _ _ hrun).succeed .second (eq_failed_of_isFailed hfailed)

end Examples

end AgentService
