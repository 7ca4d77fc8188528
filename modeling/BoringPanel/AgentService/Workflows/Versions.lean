import BoringPanel.Lib.JsJsonCode

/-!
# Versions of a workflow

A row of `scry_workflows`, as `workflowFromRow` reads its columns, and `createWorkflowRecord` and
`updateWorkflowRecord` of `db.ts`. A definition that another one replaces is kept with its number, of
which the last thirty stay.

What a row stands for is the list of the definitions that have been current, the `n`-th of which is
version `n` (`timeline`). A row shows its last thirty (`Refines`), whatever is called
(`faithfulVersions_of_calls`).
-/

namespace AgentService

structure WorkflowScheduleConfig where
  enabled : Bool
  cron : JsText
  timezone : JsText

structure WorkflowVersionRecord (N : Type) where
  version : Nat
  name : JsText
  definition : JsValue N
  createdAt : Int

/-- A row, without its id. -/
structure WorkflowRecord (N : Type) where
  name : JsText
  description : JsText
  enabled : Bool
  definition : JsValue N
  tags : List JsText
  schedule : WorkflowScheduleConfig
  eventTriggers : List (JsValue N)
  inputSchema : List (JsValue N)
  version : Nat
  versions : List (WorkflowVersionRecord N)
  createdAt : Int
  updatedAt : Int

/-- What a caller gives; an update always comes with `enabled`. -/
structure WorkflowInput (N : Type) where
  name : JsText
  description : Option JsText
  definition : JsValue N
  enabled : Option Bool
  tags : Option (List JsText)
  schedule : Option WorkflowScheduleConfig
  eventTriggers : Option (List (JsValue N))
  inputSchema : Option (List (JsValue N))

/-- The rows by their ids. -/
abbrev Workflows (N : Type) := JsText → Option (WorkflowRecord N)

variable {N : Type}

def noSchedule : WorkflowScheduleConfig := ⟨false, [], JsText.of "Asia/Shanghai"⟩

/-- The row that `createWorkflowRecord` inserts. -/
def WorkflowRecord.created (input : WorkflowInput N) (now : Int) : WorkflowRecord N where
  name := input.name
  description := input.description.getD []
  enabled := input.enabled ≠ some false
  definition := input.definition
  tags := input.tags.getD []
  schedule := input.schedule.getD noSchedule
  eventTriggers := input.eventTriggers.getD []
  inputSchema := input.inputSchema.getD []
  version := 1
  versions := []
  createdAt := now
  updatedAt := now

/-- With the id that `randomUUID` has given. -/
def createWorkflowRecord (id : JsText) (input : WorkflowInput N) (now : Int) (rows : Workflows N) :
    Workflows N :=
  Function.update rows id (some (.created input now))

section Update

variable [JsNumber N]

def definitionChanged (current : WorkflowRecord N) (input : WorkflowInput N) : Bool :=
  current.definition.stringify ≠ input.definition.stringify

/-- The entry for the definition that is replaced. -/
def WorkflowRecord.entry (current : WorkflowRecord N) : WorkflowVersionRecord N :=
  ⟨current.version, current.name, current.definition, current.updatedAt⟩

/-- The row that `updateWorkflowRecord` writes. -/
def WorkflowRecord.update (input : WorkflowInput N) (now : Int) (current : WorkflowRecord N) :
    WorkflowRecord N where
  name := input.name
  description := input.description.getD []
  definition := input.definition
  enabled := input.enabled.getD false
  tags := input.tags.getD []
  schedule := input.schedule.getD current.schedule
  eventTriggers := input.eventTriggers.getD []
  inputSchema := input.inputSchema.getD []
  version := if definitionChanged current input then current.version + 1 else current.version
  versions :=
    if definitionChanged current input then (current.versions ++ [current.entry]).rtake 30
    else current.versions
  createdAt := current.createdAt
  updatedAt := now

/-- The rows, and what is returned. -/
def updateWorkflowRecord (id : JsText) (input : WorkflowInput N) (now : Int) (rows : Workflows N) :
    Workflows N × Option (WorkflowRecord N) :=
  match rows id with
  | none => (rows, none)
  | some current =>
    let updated := current.update input now
    (Function.update rows id (some updated), some updated)

/-- A call of `updateWorkflowRecord`. -/
structure UpdateCall (N : Type) where
  id : JsText
  input : WorkflowInput N
  now : Int

/-- The rows after some calls. -/
def afterCalls (rows : Workflows N) (calls : List (UpdateCall N)) : Workflows N :=
  calls.foldl (fun rows call => (updateWorkflowRecord call.id call.input call.now rows).1) rows

end Update

/-- The definitions that calls for a workflow bring, one after another. -/
def definitionsFor (id : JsText) (calls : List (UpdateCall N)) : List (JsValue N) :=
  (calls.filter fun call => call.id = id).map fun call => call.input.definition

theorem definitionsFor_concat (id : JsText) (calls : List (UpdateCall N)) (call : UpdateCall N) :
    definitionsFor id (calls ++ [call]) =
      definitionsFor id calls ++ if call.id = id then [call.input.definition] else [] := by
  rw [definitionsFor, List.filter_append, List.map_append]
  by_cases hid : call.id = id
  · simp only [hid, definitionsFor, decide_true, List.filter_singleton, cond_true, List.map_cons, List.map_nil,
      if_true]
  · simp only [hid, definitionsFor, decide_false, List.filter_singleton, cond_false, List.map_nil, if_false]

theorem definitionsFor_prefix {id : JsText} {earlier calls : List (UpdateCall N)} (h : earlier <+: calls) :
    definitionsFor id earlier <+: definitionsFor id calls :=
  (h.filter _).map _

/-- Some of the definitions are those of some of the calls. -/
theorem exists_definitionsFor_eq {id : JsText} {calls : List (UpdateCall N)} {ds : List (JsValue N)}
    (h : ds <+: definitionsFor id calls) : ∃ earlier, earlier <+: calls ∧ definitionsFor id earlier = ds := by
  induction calls using List.reverseRecOn with
  | nil => exact ⟨[], List.prefix_rfl, (List.prefix_nil.mp h).symm⟩
  | append_singleton calls call ih =>
    have hlonger : ds = definitionsFor id (calls ++ [call]) ∨ ds <+: definitionsFor id calls := by
      rw [definitionsFor_concat] at h ⊢
      by_cases hid : call.id = id
      · rw [if_pos hid] at h ⊢
        exact List.prefix_concat_iff.mp h
      · rw [if_neg hid, List.append_nil] at h
        exact .inr h
    obtain rfl | hshort := hlonger
    · exact ⟨_, List.prefix_rfl, rfl⟩
    · obtain ⟨earlier, hprefix, heq⟩ := ih hshort
      exact ⟨earlier, hprefix.trans (List.prefix_append _ _), heq⟩

/-! ### What has been current -/

section Timeline

variable {α : Type} [DecidableEq α]

/-- A value is current from now on. -/
def adopt (timeline : List α) (d : α) : List α :=
  if timeline.getLast? = some d then timeline else timeline ++ [d]

/-- The values that are current at some time, one after another. -/
def timeline (d : α) (ds : List α) : List α := ds.foldl adopt [d]

/-- How many of some values differ from the one before. -/
def changes : α → List α → Nat
  | _, [] => 0
  | d, e :: ds => (if e = d then 0 else 1) + changes e ds

theorem prefix_adopt (t : List α) (d : α) : t <+: adopt t d := by
  unfold adopt
  split
  · exact List.prefix_rfl
  · exact List.prefix_append t [d]

theorem getLast?_adopt (t : List α) (d : α) : (adopt t d).getLast? = some d := by
  unfold adopt
  split
  · assumption
  · exact List.getLast?_concat

theorem prefix_foldl_adopt (t : List α) (ds : List α) : t <+: ds.foldl adopt t := by
  induction ds generalizing t with
  | nil => exact List.prefix_rfl
  | cons d ds ih => exact (prefix_adopt t d).trans (ih _)

/-- What has been current stays in the list. -/
theorem timeline_prefix {d : α} {ds es : List α} (h : ds <+: es) : timeline d ds <+: timeline d es := by
  obtain ⟨rest, rfl⟩ := h
  rw [timeline, timeline, List.foldl_append]
  exact prefix_foldl_adopt _ rest

theorem length_foldl_adopt {t : List α} {d : α} (h : t.getLast? = some d) (ds : List α) :
    (ds.foldl adopt t).length = t.length + changes d ds := by
  induction ds generalizing t d with
  | nil => rfl
  | cons e ds ih =>
    rw [List.foldl_cons, ih (getLast?_adopt t e), changes, adopt, h]
    by_cases he : e = d
    · rw [if_pos he, if_pos (congrArg some he.symm), Nat.zero_add]
    · rw [if_neg he, if_neg (fun heq => he (Option.some.inj heq).symm), List.length_append,
        List.length_singleton, Nat.add_assoc]

theorem length_timeline (d : α) (ds : List α) : (timeline d ds).length = 1 + changes d ds :=
  length_foldl_adopt rfl ds

/-- Every value of the list was the last one at some time. -/
theorem exists_length_timeline {d : α} (ds : List α) {n : Nat} (hpos : 0 < n)
    (hn : n ≤ (timeline d ds).length) : ∃ earlier, earlier <+: ds ∧ (timeline d earlier).length = n := by
  induction ds using List.reverseRecOn with
  | nil => exact ⟨[], List.prefix_rfl, le_antisymm hpos hn⟩
  | append_singleton ds e ih =>
    by_cases hle : n ≤ (timeline d ds).length
    · obtain ⟨earlier, hprefix, hlength⟩ := ih hle
      exact ⟨earlier, hprefix.trans (List.prefix_append ds [e]), hlength⟩
    · refine ⟨ds ++ [e], List.prefix_rfl, le_antisymm ?_ hn⟩
      rw [timeline, List.foldl_append]
      show (adopt (timeline d ds) e).length ≤ n
      unfold adopt
      split
      · omega
      · rw [List.length_append, List.length_singleton]
        omega

omit [DecidableEq α] in
/-- A window over a list keeps what it would show of a longer one. -/
theorem rtake_rtake_concat (n : Nat) (l : List α) (a : α) : (l.rtake n ++ [a]).rtake n = (l ++ [a]).rtake n := by
  cases n with
  | zero => rw [List.rtake_zero, List.rtake_zero]
  | succ n =>
    rw [List.rtake_concat_succ, List.rtake_concat_succ]
    congr 1
    simp only [List.rtake_eq_reverse_take_reverse, List.reverse_reverse, List.take_take, Nat.min_eq_left (Nat.le_succ n)]

omit [DecidableEq α] in
theorem map_rtake {β : Type} (f : α → β) (n : Nat) (l : List α) : (l.rtake n).map f = (l.map f).rtake n := by
  rw [List.rtake, List.rtake, List.map_drop, List.length_map]

end Timeline

/-! ### Rows -/

section Rows

variable [JsNumber N] {rows : Workflows N} {id : JsText} {input : WorkflowInput N} {now : Int}
  {row : WorkflowRecord N} {calls : List (UpdateCall N)} {t : List (JsValue N)}

/-- A row shows the last of what has been current, and the thirty definitions before it. -/
structure Refines (t : List (JsValue N)) (row : WorkflowRecord N) : Prop where
  version : row.version = t.length
  definition : t.getLast? = some row.definition
  versions : row.versions.map (fun e => (e.definition, e.version)) = (t.dropLast.zipIdx 1).rtake 30

omit [JsNumber N] in
theorem refines_created (input : WorkflowInput N) (now : Int) :
    Refines [input.definition] (.created input now) :=
  ⟨rfl, rfl, rfl⟩

omit [JsNumber N] in
/-- The entries with the one for the last definition. -/
theorem Refines.snoc_entry (h : Refines t row) :
    ((row.versions ++ [row.entry]).rtake 30).map (fun e => (e.definition, e.version)) =
      (t.zipIdx 1).rtake 30 := by
  obtain ⟨front, hfront⟩ := List.getLast?_eq_some_iff.mp h.definition
  have hdrop : t.dropLast = front := by
    rw [hfront, List.dropLast_concat]
  have hnumber : row.version = 1 + front.length := by
    rw [h.version, hfront, List.length_append, Nat.add_comm]
    rfl
  have hentry : [row.entry].map (fun e => (e.definition, e.version)) = [row.definition].zipIdx (1 + front.length) := by
    rw [← hnumber]
    rfl
  rw [map_rtake, List.map_append, h.versions, hdrop, hentry, hfront, List.zipIdx_append]
  exact rtake_rtake_concat 30 _ _

omit [JsNumber N] in
/-- A number of the window is that of the definition at its place. -/
theorem Refines.getElem?_of_mem (h : Refines t row) {e : WorkflowVersionRecord N} (he : e ∈ row.versions) :
    0 < e.version ∧ e.version < t.length ∧ t[e.version - 1]? = some e.definition := by
  have hmem : (e.definition, e.version) ∈ row.versions.map fun e => (e.definition, e.version) :=
    List.mem_map.mpr ⟨e, he, rfl⟩
  rw [h.versions] at hmem
  obtain ⟨hpos, hget⟩ := List.mk_mem_zipIdx_iff_le_and_getElem?_sub.mp ((List.drop_sublist _ _).subset hmem)
  rw [List.getElem?_dropLast] at hget
  split at hget
  · exact ⟨hpos, by omega, hget⟩
  · cases hget

omit [JsNumber N] in
/-- The numbers of the window go up to the one before the version. -/
theorem Refines.numbers (h : Refines t row) : row.versions.map (fun e => e.version) =
    List.range' (row.version - min 30 (row.version - 1)) (min 30 (row.version - 1)) := by
  have hsnd : row.versions.map (fun e => e.version) =
      (row.versions.map fun e => (e.definition, e.version)).map Prod.snd := by
    rw [List.map_map]
    rfl
  rw [hsnd, h.versions, map_rtake, List.zipIdx_map_snd, List.rtake, List.drop_range', List.length_range',
    List.length_dropLast, ← h.version]
  have hpos : 0 < t.length := List.length_pos_iff.mpr (List.getLast?_isSome.mp (by rw [h.definition]; rfl))
  have hversion := h.version
  congr 1
  · omega
  · omega

/-- A call for one workflow is an update of its row alone. -/
theorem updateWorkflowRecord_apply (call : UpdateCall N) (h : rows id = some row) :
    (updateWorkflowRecord call.id call.input call.now rows).1 id =
      some (if call.id = id then row.update call.input call.now else row) := by
  unfold updateWorkflowRecord
  by_cases hid : call.id = id
  · subst hid
    rw [h, if_pos rfl]
    exact Function.update_self _ _ _
  · rw [if_neg hid]
    cases hother : rows call.id with
    | none => exact h
    | some other => exact (Function.update_of_ne (Ne.symm hid) _ _).trans h

section Lawful

variable [LawfulJsNumber N]

theorem definitionChanged_iff (current : WorkflowRecord N) :
    definitionChanged current input = true ↔ current.definition ≠ input.definition := by
  rw [definitionChanged, decide_eq_true_iff, ne_eq, JsValue.stringify_injective.eq_iff]

/-- An update with the same definition keeps the versions. -/
theorem update_of_same (now : Int) (h : input.definition = row.definition) :
    (row.update input now).version = row.version ∧ (row.update input now).versions = row.versions := by
  have hunchanged : ¬ definitionChanged row input = true :=
    fun hchanged => (definitionChanged_iff row).mp hchanged h.symm
  exact ⟨if_neg hunchanged, if_neg hunchanged⟩

/-- **An update adopts its definition.** -/
theorem Refines.update (h : Refines t row) : Refines (adopt t input.definition) (row.update input now) := by
  by_cases hsame : input.definition = row.definition
  · obtain ⟨hversion, hversions⟩ := update_of_same now hsame
    have hlast : t.getLast? = some input.definition := h.definition.trans (congrArg some hsame.symm)
    rw [adopt, if_pos hlast]
    exact ⟨hversion.trans h.version, hlast, by rw [hversions]; exact h.versions⟩
  · have hchanged : definitionChanged row input = true :=
      (definitionChanged_iff row).mpr fun heq => hsame heq.symm
    have hversion : (row.update input now).version = row.version + 1 := if_pos hchanged
    have hversions : (row.update input now).versions = (row.versions ++ [row.entry]).rtake 30 := if_pos hchanged
    have hlast : ¬ t.getLast? = some input.definition := by
      rw [h.definition]
      exact fun heq => hsame (Option.some.inj heq).symm
    rw [adopt, if_neg hlast]
    refine ⟨?_, List.getLast?_concat, ?_⟩
    · rw [hversion, h.version, List.length_append, List.length_singleton]
    · rw [hversions, List.dropLast_concat]
      exact h.snoc_entry

/-- **The row of a workflow refines what its calls have made current.** -/
theorem refines_afterCalls (rows : Workflows N) (id : JsText) (input : WorkflowInput N) (now : Int)
    (calls : List (UpdateCall N)) :
    ∃ row, afterCalls (createWorkflowRecord id input now rows) calls id = some row ∧
      Refines (timeline input.definition (definitionsFor id calls)) row := by
  induction calls using List.reverseRecOn with
  | nil => exact ⟨.created input now, Function.update_self _ _ _, refines_created input now⟩
  | append_singleton calls call ih =>
    obtain ⟨row, hrow, hrefines⟩ := ih
    refine ⟨if call.id = id then row.update call.input call.now else row, ?_, ?_⟩
    · rw [afterCalls, List.foldl_append]
      exact updateWorkflowRecord_apply call hrow
    · rw [definitionsFor_concat]
      by_cases hid : call.id = id
      · rw [if_pos hid, if_pos hid, timeline, List.foldl_append]
        exact hrefines.update
      · rw [if_neg hid, if_neg hid, List.append_nil]
        exact hrefines

/-- What holds of the versions of a workflow's row, some calls after the rows at first. -/
structure FaithfulVersions (first : Workflows N) (id : JsText) (input : WorkflowInput N)
    (calls : List (UpdateCall N)) (row : WorkflowRecord N) : Prop where
  version : row.version = 1 + changes input.definition (definitionsFor id calls)
  /-- The last thirty numbers before the version, or all. -/
  numbers : row.versions.map (fun e => e.version) =
    List.range' (row.version - min 30 (row.version - 1)) (min 30 (row.version - 1))
  /-- A number was the version at some time, and an entry has the definition that was current whenever
  it was. -/
  reached : ∀ e ∈ row.versions, ∃ earlier r, earlier <+: calls ∧ afterCalls first earlier id = some r ∧
    r.version = e.version
  current : ∀ e ∈ row.versions, ∀ earlier r, earlier <+: calls → afterCalls first earlier id = some r →
    r.version = e.version → r.definition = e.definition
  /-- A call with the same definition changes neither. -/
  unchanged : ∀ again now, again.definition = row.definition →
    ∃ r, (updateWorkflowRecord id again now (afterCalls first calls)).2 = some r ∧
      r.version = row.version ∧ r.versions = row.versions

/-- **Whatever is called, a workflow has the number of its definition and the definitions of the numbers
before it.** -/
theorem faithfulVersions_of_calls (rows : Workflows N) (id : JsText) (input : WorkflowInput N) (now : Int)
    (calls : List (UpdateCall N)) :
    ∃ row, afterCalls (createWorkflowRecord id input now rows) calls id = some row ∧
      FaithfulVersions (createWorkflowRecord id input now rows) id input calls row := by
  obtain ⟨row, hrow, hrefines⟩ := refines_afterCalls rows id input now calls
  refine ⟨row, hrow, ?_, hrefines.numbers, ?_, ?_, ?_⟩
  · rw [hrefines.version, length_timeline]
  · intro e he
    obtain ⟨hpos, hlt, -⟩ := hrefines.getElem?_of_mem he
    obtain ⟨ds, hds, hlength⟩ := exists_length_timeline _ hpos hlt.le
    obtain ⟨earlier, hearlier, rfl⟩ := exists_definitionsFor_eq hds
    obtain ⟨r, hr, hrefinesr⟩ := refines_afterCalls rows id input now earlier
    exact ⟨earlier, r, hearlier, hr, hrefinesr.version.trans hlength⟩
  · intro e he earlier r hearlier hr hversion
    obtain ⟨r', hr', hrefinesr⟩ := refines_afterCalls rows id input now earlier
    obtain rfl := Option.some.inj (hr.symm.trans hr')
    -- the last of what was current then is at this place of what has been current since
    have hlast := hrefinesr.definition
    rw [List.getLast?_eq_getElem?, ← hrefinesr.version, hversion] at hlast
    obtain ⟨-, -, hentry⟩ := hrefines.getElem?_of_mem he
    have hprefix : timeline input.definition (definitionsFor id earlier) <+:
        timeline input.definition (definitionsFor id calls) := timeline_prefix ( definitionsFor_prefix hearlier)
    obtain ⟨later, hlater⟩ := hprefix
    rw [← hlater, List.getElem?_append_left (List.getElem?_eq_some_iff.mp hlast).1, hlast] at hentry
    exact Option.some.inj hentry
  · intro again now' hsame
    obtain ⟨hversion, hversions⟩ := update_of_same now' hsame
    refine ⟨row.update again now', ?_, hversion, hversions⟩
    rw [updateWorkflowRecord, hrow]

end Lawful

/-- An input with a definition and nothing else to tell. -/
def definitionInput (definition : JsValue N) : WorkflowInput N :=
  ⟨JsText.of "Loop", none, definition, some true, none, none, none, none⟩

theorem faithfulVersions_thrice :
    ∃ row, afterCalls (createWorkflowRecord (JsText.of "w") (definitionInput (.number (1 : Int))) 0 fun _ => none)
        [⟨JsText.of "w", definitionInput (.number 2), 1⟩, ⟨JsText.of "w", definitionInput (.number 2), 2⟩,
          ⟨JsText.of "w", definitionInput (.number 1), 3⟩] (JsText.of "w") = some row ∧
      FaithfulVersions (createWorkflowRecord (JsText.of "w") (definitionInput (.number (1 : Int))) 0 fun _ => none)
        (JsText.of "w") (definitionInput (.number 1))
        [⟨JsText.of "w", definitionInput (.number 2), 1⟩, ⟨JsText.of "w", definitionInput (.number 2), 2⟩,
          ⟨JsText.of "w", definitionInput (.number 1), 3⟩] row :=
  faithfulVersions_of_calls _ _ _ _ _

end Rows

end AgentService
