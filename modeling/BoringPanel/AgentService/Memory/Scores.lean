import BoringPanel.AgentService.Evidence.Items
import BoringPanel.AgentService.Memory.Upkeep

/-!
# Scores of memories

Confidence, importance and vitality are computed by the operations of `memory/index.ts` from what their
callers give: the API and the tools, whose schemas admit whole numbers from 0 to 100, and the evidence
and Loops that are written back. All stay between 0 and 100 (`scores_of_run`). A new memory with an
injection in its texts is suspended with little confidence, and no score falls when a memory is reinforced.
-/

namespace AgentService

/-- A whole number from 0 to 100. -/
def InScore (n : Int) : Prop := 0 ≤ n ∧ n ≤ 100

/-- What a schema `z.number().int().min(0).max(100)` admits. -/
abbrev Score := { n : Int // InScore n }

theorem inScore_clampScore (value : ℚ) : InScore (clampScore value) :=
  ⟨le_max_left _ _, max_le (by decide) (min_le_left _ _)⟩

/-- A score is not lower after it has been clamped with something greater. -/
theorem le_clampScore {n : Int} (hn : n ≤ 100) {value : ℚ} (h : (n : ℚ) ≤ value) : n ≤ clampScore value := by
  refine le_max_of_le_right (le_min hn (Rat.le_floor_iff.mpr ?_))
  linarith

theorem inScore_zero : InScore 0 := ⟨le_refl 0, by decide⟩

theorem InScore.both_min {n m : Int} (hn : InScore n) (hm : InScore m) : InScore (min n m) :=
  ⟨le_min hn.1 hm.1, (min_le_left n m).trans hn.2⟩

theorem InScore.both_max {n m : Int} (hn : InScore n) (hm : InScore m) : InScore (max n m) :=
  ⟨hn.1.trans (le_max_left n m), max_le hn.2 hm.2⟩

theorem InScore.raise {n : Int} (hn : InScore n) {k : Int} (hk : 0 ≤ k) : InScore (min 100 (n + k)) :=
  ⟨le_min (by decide) (add_nonneg hn.1 hk), min_le_left _ _⟩

/-! ### Who creates memories -/

section Writers

/-- `Math.round(usable.reduce((sum, item) => sum + item.confidence, 0) / usable.length)` -/
def meanScore (first : Score) (rest : List Score) : Int :=
  ((((first :: rest).map Subtype.val).sum : ℚ) / (first :: rest).length + 1 / 2).floor

theorem inScore_meanScore (first : Score) (rest : List Score) : InScore (meanScore first rest) := by
  have hsum : ∀ scores : List Score, 0 ≤ (scores.map Subtype.val).sum ∧
      (scores.map Subtype.val).sum ≤ 100 * scores.length := by
    intro scores
    induction scores with
    | nil => decide
    | cons score scores ih =>
      obtain ⟨hlow, hhigh⟩ := score.property
      simp only [List.map_cons, List.sum_cons, List.length_cons]
      omega
  obtain ⟨hlow, hhigh⟩ := hsum (first :: rest)
  have hlength : (0 : ℚ) < (first :: rest).length := by simp; positivity
  have hlow' : (0 : ℚ) ≤ ((first :: rest).map Subtype.val).sum := by exact_mod_cast hlow
  have hhigh' : (((first :: rest).map Subtype.val).sum : ℚ) ≤ 100 * (first :: rest).length := by
    exact_mod_cast hhigh
  refine ⟨Rat.le_floor_iff.mpr ?_, ?_⟩
  · have := div_nonneg hlow' hlength.le
    rw [Int.cast_zero]
    linarith
  · have hmean : (((first :: rest).map Subtype.val).sum : ℚ) / (first :: rest).length ≤ 100 :=
      (div_le_iff₀ hlength).mpr hhigh'
    refine Int.lt_add_one_iff.mp (Rat.floor_lt_iff.mpr ?_)
    rw [Int.cast_add, Int.cast_ofNat, Int.cast_one]
    linarith

/-- Who calls `createMemory`, with what the scores are computed from. -/
inductive MemoryWriter where
  /-- `POST /api/memories` -/
  | api (confidence importance : Option Score)
  /-- the tool `write-memory`, with the confidence of each of the evidence items -/
  | tool (first : Score) (rest : List Score) (importance : Score)
  /-- `learnMemoryFromEvidence` -/
  | evidence (confidence relevance : Score)
  /-- `learnMemoryFromWorkflowOutcome`; some of the evidence has been accepted, or none -/
  | loop (accepted : Bool)
  /-- `generateMemorySamples` -/
  | sample (confidence importance : Score)

namespace MemoryWriter

def confidence : MemoryWriter → Option Int
  | api confidence _ => confidence.map Subtype.val
  | tool first rest _ => some (meanScore first rest)
  | evidence confidence _ => some confidence
  | loop accepted => some (if accepted then 88 else 72)
  | sample confidence _ => some confidence

def importance : MemoryWriter → Option Int
  | api _ importance => importance.map Subtype.val
  | tool _ _ importance => some importance
  | evidence confidence relevance =>
    some (clampScore ((relevance : ℚ) * (6 / 10) + (confidence : ℚ) * (4 / 10)))
  | loop _ => some 75
  | sample _ importance => some importance

variable (writer : MemoryWriter)

theorem inScore_confidence : ∀ n ∈ writer.confidence, InScore n := by
  cases writer with
  | api confidence importance =>
    intro n hn
    obtain ⟨score, -, rfl⟩ := Option.map_eq_some_iff.mp hn
    exact score.property
  | tool first rest importance =>
    rintro n ⟨⟩
    exact inScore_meanScore first rest
  | evidence confidence relevance =>
    rintro n ⟨⟩
    exact confidence.property
  | loop accepted =>
    rintro n ⟨⟩
    unfold InScore
    split <;> decide
  | sample confidence importance =>
    rintro n ⟨⟩
    exact confidence.property

end MemoryWriter

end Writers

/-! ### Rows -/

section Rows

variable {N : Type} {st st' : Store N} {id : JsText} {f : MemoryItem N → MemoryItem N}

/-- The scores of a row are scores. -/
structure MemoryItem.Scored (item : MemoryItem N) : Prop where
  confidence : InScore item.confidence
  importance : InScore item.importance
  vitality : InScore item.vitality

/-- The scores of all rows are, each of which has its own identifier. -/
structure Store.Scored (st : Store N) : Prop where
  unique : st.UniqueIds
  rows : ∀ item ∈ st.items, item.Scored

theorem scored_empty : (Store.empty : Store N).Scored := ⟨List.nodup_nil, fun _ h => nomatch h⟩

theorem Store.Scored.of_items (h : st.Scored) (hitems : st'.items = st.items) : st'.Scored := by
  refine ⟨?_, ?_⟩
  · rw [Store.UniqueIds, hitems]
    exact h.unique
  · rw [hitems]
    exact h.rows

/-- An action is recorded. -/
theorem Store.Scored.recorded (h : st.Scored) {now : Int} {user : AuthenticatedUser} {action : String}
    {previous next : MemoryStatus} {detail : JsText} :
    (st.addMemoryAction now id user action previous next detail).Scored :=
  h.of_items rfl

theorem Store.Scored.updateItem (h : st.Scored) (hid : ∀ row, (f row).id = row.id)
    (hf : ∀ row, row.Scored → (f row).Scored) : (st.updateItem id f).Scored := by
  refine ⟨uniqueIds_updateItem hid h.unique, fun item hitem => ?_⟩
  obtain ⟨row, hrow, rfl⟩ := List.mem_map.mp hitem
  split
  · exact hf row (h.rows row hrow)
  · exact h.rows row hrow

theorem Store.Scored.insert (h : st.Scored) {item : MemoryItem N} (hnone : st.row? item.id = none)
    (hitem : item.Scored) : ({ st with items := st.items ++ [item] } : Store N).Scored := by
  refine ⟨uniqueIds_insert item h.unique hnone, fun row hrow => ?_⟩
  rcases List.mem_append.mp hrow with hrow | hrow
  · exact h.rows row hrow
  · rwa [List.mem_singleton.mp hrow]

end Rows

/-! ### Calls -/

section Calls

variable {N : Type} [JsNumber N] {lib : MemoryLibrary N} {now : Int} {st : Store N}
  {user : AuthenticatedUser} {id : JsText}

/-- The scores that a call gives are those of one of the callers, or of the API. -/
def Enforced : MemoryCall N → Prop
  | .create _ _ input =>
    ∃ writer : MemoryWriter, input.confidence = writer.confidence ∧ input.importance = writer.importance
  | .update _ _ input => (∀ n ∈ input.confidence, InScore n) ∧ ∀ n ∈ input.importance, InScore n
  | _ => True

theorem CreateInput.inScore_storedConfidence {input : CreateInput N}
    (h : ∀ n ∈ input.confidence, InScore n) : InScore (input.storedConfidence lib) := by
  rw [storedConfidence]
  split
  · refine InScore.both_min (by unfold InScore; decide) ?_
    cases hgiven : input.confidence with
    | none =>
      unfold InScore
      decide
    | some n => exact h n hgiven
  · exact inScore_clampScore _

theorem MemoryItem.Scored.reinforce {item row : MemoryItem N} (hrow : row.Scored) {input : CreateInput N}
    (h : ∀ n ∈ input.confidence, InScore n) : (input.reinforce lib now item row).Scored :=
  ⟨hrow.confidence.both_max (CreateInput.inScore_storedConfidence h),
    hrow.importance.both_max (inScore_clampScore _), inScore_clampScore _⟩

theorem reinforceMemory_items (input : CreateInput N) (item : MemoryItem N) :
    (reinforceMemory lib now user input item st).1.items =
      (st.updateItem item.id (input.reinforce lib now item)).items := by
  rw [reinforceMemory, getMemory_eq.1]
  exact addMemorySources_eq.1

theorem completeMemory_items (input : CreateInput N) :
    (completeMemory lib now user input id st).1.items = st.items := by
  rw [completeMemory]
  split
  rename_i st' created hget
  have hread : st'.items = st.items := by
    have heq := congrArg (fun outcome => outcome.1.items) hget
    exact heq.symm.trans (getMemory_eq.1.trans addMemorySources_eq.1)
  cases created with
  | none => exact hread
  | some memory => exact getMemory_eq.1.trans ((createMemoryRelations_eq memory).1.trans hread)

theorem Store.Scored.create (h : st.Scored) {input : CreateInput N}
    (hconfidence : ∀ n ∈ input.confidence, InScore n) : (createMemory lib now user id input st).1.Scored := by
  rw [createMemory]
  split
  · exact h
  split
  · rename_i item hexisting
    refine Store.Scored.of_items ?_ (reinforceMemory_items input item)
    exact h.updateItem (fun _ => rfl) fun row hrow => hrow.reinforce hconfidence
  split
  · exact h
  · rename_i hfresh
    refine Store.Scored.of_items (h.insert ?_ ?_) (completeMemory_items input)
    · refine row?_eq_none_iff.mpr fun item hitem hid => hfresh ?_
      exact List.any_eq_true.mpr ⟨item, hitem, decide_eq_true hid⟩
    · exact ⟨CreateInput.inScore_storedConfidence hconfidence, inScore_clampScore _, inScore_clampScore _⟩

/-- An operation that reads a memory first. -/
theorem Store.Scored.withMemory (h : st.Scored) {change : MemoryItem N → Store N → Fallibly N}
    (hchange : ∀ st' : Store N, st'.Scored → ∀ current : MemoryItem N, current.Scored →
      (change current st').1.Scored) : (withMemory lib now user id change st).1.Scored := by
  rcases withMemory_cases lib now user id change st with heq | ⟨current, hmem, -, -, -, heq⟩
  · rw [heq]
    exact h
  · rw [heq]
    exact hchange _ (h.of_items (hydrateMemories_items _)) current (h.rows current hmem)

omit [JsNumber N] in
theorem MemoryItem.Scored.apply {current row : MemoryItem N} (hcurrent : current.Scored)
    (input : UpdateInput) : (input.apply now current row).Scored := by
  refine ⟨inScore_clampScore _, inScore_clampScore _, ?_⟩
  show InScore (input.nextVitality current)
  rw [UpdateInput.nextVitality]
  split
  · exact inScore_clampScore _
  · exact hcurrent.vitality

theorem Store.Scored.update (h : st.Scored) (input : UpdateInput) :
    (updateMemory lib now user id input st).1.Scored := by
  refine h.withMemory fun st' hst' current hcurrent => ?_
  dsimp only
  split
  · exact hst'
  · have hupdated : (st'.updateItem id (input.apply now current)).Scored :=
      hst'.updateItem (fun _ => rfl) fun row _ => hcurrent.apply input
    refine hupdated.of_items ?_
    rw [thenGetMemory]
    refine getMemory_eq.1.trans ?_
    show (if _ then _ else _ : Store N).items = _
    split
    · rfl
    · rfl

theorem Store.Scored.forget (h : st.Scored) : (forgetMemory lib now user id st).1.Scored := by
  refine h.withMemory fun st' hst' current hcurrent => ?_
  dsimp only
  split
  · exact hst'
  · have hforgotten : (st'.updateItem id (MemoryItem.forget lib now)).Scored :=
      hst'.updateItem (fun _ => rfl) fun row hrow =>
        ⟨hrow.confidence, hrow.importance, inScore_zero⟩
    exact hforgotten.of_items getMemory_eq.1

omit [JsNumber N] in
theorem MemoryItem.Scored.access {row : MemoryItem N} (h : row.Scored) : (row.access now).Scored :=
  ⟨h.confidence, h.importance, h.vitality.raise (by decide)⟩

theorem Store.Scored.retrieve (h : st.Scored) (context : MemoryContext) (includeInactive : Bool)
    (ranking : Ranking N) :
    (retrieveMemories lib now user context includeInactive ranking st).1.Scored := by
  rw [retrieveMemories]
  refine List.foldlRecOn (motive := Store.Scored) _ _ (h.of_items (hydrateMemories_items _)) ?_
  exact fun st' hst' memory _ => hst'.updateItem (fun _ => rfl) fun row hrow => hrow.access

/-- A step of a maintenance. -/
theorem Store.Scored.run (h : st.Scored) {items : List (MemoryItem N)} {u : Upkeep N}
    (hu : u.Due lib now items) : (Upkeep.run now user st u).Scored := by
  cases hu with
  | expire hitem hexpired =>
    rw [Upkeep.run]
    refine .recorded (h.updateItem ?_ ?_)
    · exact fun _ => rfl
    · exact fun row hrow => ⟨hrow.confidence, hrow.importance, inScore_zero⟩
  | decay hitem hloose =>
    rw [Upkeep.run]
    refine h.updateItem ?_ ?_
    · exact fun _ => rfl
    · exact fun row hrow => ⟨hrow.confidence, hrow.importance, inScore_clampScore _⟩
  | archive hitem hfades =>
    rw [Upkeep.run]
    refine .recorded (h.updateItem ?_ ?_)
    · exact fun _ => rfl
    · exact fun row hrow => ⟨hrow.confidence, hrow.importance, hrow.vitality⟩
  | merge hpair hmerged =>
    rw [Upkeep.run]
    refine .recorded (.updateItem (h.updateItem ?_ ?_) ?_ ?_)
    · exact fun _ => rfl
    · exact fun row hrow => ⟨hrow.confidence, hrow.importance, hrow.vitality.raise (by decide)⟩
    · exact fun _ => rfl
    · exact fun row hrow => ⟨hrow.confidence, hrow.importance, hrow.vitality⟩
  | conflict hpair hconflict => exact h.of_items addMemoryRelation_eq.1
  | suspend hpair hconflict hloose =>
    rw [Upkeep.run]
    refine .recorded (h.updateItem ?_ ?_)
    · exact fun _ => rfl
    · exact fun row hrow => ⟨hrow.confidence, hrow.importance, hrow.vitality⟩

theorem Store.Scored.maintain (h : st.Scored) (limit : Nat) :
    (maintainMemories lib now user limit st).1.Scored := by
  refine List.foldlRecOn (motive := Store.Scored) _ _ (h.of_items (hydrateMemories_items _)) ?_
  exact fun st' hst' u hu => hst'.run (due_of_mem_upkeep hu)

/-- Every call with scores from its callers leaves scores. -/
theorem Store.Scored.perform (h : st.Scored) {call : MemoryCall N} (hcall : Enforced call) :
    (perform lib now st call).Scored := by
  cases call with
  | create user id input =>
    obtain ⟨writer, hconfidence, himportance⟩ := hcall
    exact h.create (hconfidence ▸ writer.inScore_confidence)
  | update user id input => exact h.update input
  | forget user id => exact h.forget
  | retrieve user context includeInactive ranking => exact h.retrieve context includeInactive ranking
  | maintain user limit => exact h.maintain limit
  | list user input => exact h.of_items (hydrateMemories_items _)
  | get user id context => exact h.of_items getMemory_eq.1

end Calls

/-! ### Reinforcement -/

section Reinforcement

variable {N : Type} {st st' : Store N} {id : JsText} {now : Int} {user : AuthenticatedUser}

/-- No score of a row is lower than before. -/
structure Reinforced (row row' : MemoryItem N) : Prop where
  confidence : row.confidence ≤ row'.confidence
  importance : row.importance ≤ row'.importance
  vitality : row.vitality ≤ row'.vitality

/-- No score of a memory is. -/
def Raises (id : JsText) (st st' : Store N) : Prop :=
  ∀ row, st.row? id = some row → ∃ row', st'.row? id = some row' ∧ Reinforced row row'

theorem Raises.of_items (h : st'.items = st.items) : Raises id st st' := by
  intro row hrow
  refine ⟨row, ?_, le_refl _, le_refl _, le_refl _⟩
  rw [Store.row?, h]
  exact hrow

theorem Raises.congr {st₁ st₁' : Store N} (h : Raises id st st') (hitems : st₁.items = st.items)
    (hitems' : st₁'.items = st'.items) : Raises id st₁ st₁' := by
  intro row hrow
  rw [Store.row?, hitems] at hrow
  rw [Store.row?, hitems']
  exact h row hrow

theorem raises_updateItem {f : MemoryItem N → MemoryItem N} (hid : ∀ row, (f row).id = row.id)
    (hf : ∀ row ∈ st.items, row.id = id → Reinforced row (f row)) : Raises id st (st.updateItem id f) := by
  intro row hrow
  refine ⟨f row, ?_, hf row (mem_of_row? hrow) (find?_id hrow)⟩
  rw [row?_updateItem_self hid, hrow]
  rfl

theorem row?_updateItem (id' : JsText) {f : MemoryItem N → MemoryItem N}
    (hid : ∀ row, (f row).id = row.id) :
    (st.updateItem id' f).row? id = (st.row? id).map fun row => if id = id' then f row else row := by
  by_cases heq : id = id'
  · rw [heq, row?_updateItem_self hid]
    simp
  · rw [row?_updateItem_of_ne hid heq]
    simp [heq]

/-- The memory that another one is merged into. -/
theorem raises_merge (h : st.Scored) (left right : MemoryItem N) :
    Raises left.id st (Upkeep.run now user st (.merge left right)) := by
  intro row hrow
  have hvitality : row.vitality ≤ min 100 (row.vitality + 5) := by
    have hhigh := (h.rows row (mem_of_row? hrow)).vitality.2
    omega
  rw [Upkeep.run]
  show ∃ row', Store.row? (Store.updateItem _ right.id _) left.id = some row' ∧ _
  rw [row?_updateItem, row?_updateItem, hrow]
  · refine ⟨_, rfl, ?_⟩
    dsimp only
    rw [if_pos rfl]
    split
    · exact ⟨le_refl _, le_refl _, hvitality⟩
    · exact ⟨le_refl _, le_refl _, hvitality⟩
  · exact fun _ => rfl
  · exact fun _ => rfl

variable [JsNumber N] {lib : MemoryLibrary N}

/-- A memory whose content occurs again. -/
theorem raises_reinforceMemory (h : st.Scored) {item : MemoryItem N} (hitem : item ∈ st.items)
    (input : CreateInput N) : Raises item.id st (reinforceMemory lib now user input item st).1 := by
  intro row hrow
  rw [row?_of_mem h.unique hitem] at hrow
  obtain rfl := Option.some.inj hrow
  refine ⟨input.reinforce lib now item item, ?_, le_max_left _ _, le_max_left _ _, ?_⟩
  · rw [Store.row?, reinforceMemory_items, ← Store.row?, row?_updateItem_self
      (f := input.reinforce lib now item) fun _ => rfl, row?_of_mem h.unique hitem]
    rfl
  · refine le_clampScore (h.rows item hitem).vitality.2 ?_
    have hmax := le_max_left (item.vitality : ℚ)
      (((input.storedConfidence lib : ℚ) + input.storedImportance) / 2)
    linarith

/-- A memory that is verified, and no score of which is given. -/
theorem raises_updateMemory (h : st.Scored) {input : UpdateInput} (hstatus : input.status = some .verified)
    (hconfidence : input.confidence = none) (himportance : input.importance = none) :
    Raises id st (updateMemory lib now user id input st).1 := by
  have hclamp : ∀ {n : Int}, InScore n → n ≤ clampScore n := fun hn => le_clampScore hn.2 le_rfl
  rcases withMemory_cases lib now user id _ st with heq | ⟨current, hmem, hid, -, -, heq⟩
  · rw [updateMemory, heq]
    exact .of_items rfl
  · rw [updateMemory, heq]
    dsimp only
    split
    · exact .of_items (hydrateMemories_items _)
    · have hraises : Raises id st (st.updateItem id (input.apply now current)) := by
        refine raises_updateItem (fun _ => rfl) fun row hrow hrowid => ?_
        obtain rfl := List.inj_on_of_nodup_map h.unique hrow hmem (hrowid.trans hid.symm)
        have hscored := h.rows row hrow
        refine ⟨?_, ?_, ?_⟩
        · show row.confidence ≤ clampScore ((input.confidence.getD row.confidence : Int) : ℚ)
          rw [hconfidence]
          exact hclamp hscored.confidence
        · show row.importance ≤ clampScore ((input.importance.getD row.importance : Int) : ℚ)
          rw [himportance]
          exact hclamp hscored.importance
        · show row.vitality ≤ input.nextVitality row
          rw [UpdateInput.nextVitality, if_pos (by rw [UpdateInput.nextStatus, hstatus]; rfl)]
          exact le_clampScore hscored.vitality.2 (le_max_left _ _)
      refine hraises.congr rfl ?_
      rw [thenGetMemory]
      refine getMemory_eq.1.trans ?_
      show (if _ then _ else _ : Store N).items = _
      have hitems : ((hydrateMemories lib now st [current]).updateItem id (input.apply now current)).items =
          (st.updateItem id (input.apply now current)).items := by
        show (hydrateMemories lib now st [current]).items.map _ = _
        rw [hydrateMemories_items]
        rfl
      split
      · exact hitems
      · exact hitems

end Reinforcement

/-! ### Runs -/

section Runs

variable {N : Type} [JsNumber N] (lib : MemoryLibrary N) (now : Int) (st : Store N)

/-- The store after some steps of a maintenance. -/
def duringUpkeep (user : AuthenticatedUser) (limit : Nat) (steps : List (Upkeep N)) : Store N :=
  steps.foldl (Upkeep.run now user)
    (hydrateMemories lib now st (listedMemories lib user (.all .none true (min limit 500)) st))

/-- What a call does to the memory that it creates, and to those that it reinforces. -/
structure ScoresRight (call : MemoryCall N) : Prop where
  /-- A new memory with an injection starts suspended. -/
  suspended : ∀ user id input, call = .create user id input → input.scopeError user = none →
    input.existing lib user st = none → st.row? id = none → (input.injection lib).detected = true →
    ∃ row, (perform lib now st call).row? id = some row ∧ row.status = .suspended ∧ row.confidence ≤ 35
  /-- The same content is created again. -/
  created : ∀ user id input item, call = .create user id input → input.scopeError user = none →
    input.existing lib user st = some item → Raises item.id st (perform lib now st call)
  /-- A memory is verified, without new scores. -/
  verified : ∀ user id input, call = .update user id input → input.status = some .verified →
    input.confidence = none → input.importance = none → Raises id st (perform lib now st call)
  /-- Another memory is merged into it. -/
  merged : ∀ user limit before left right after, call = .maintain user limit →
    upkeep lib now (maintained lib user limit st) = before ++ .merge left right :: after →
    Raises left.id (duringUpkeep lib now st user limit before)
      (duringUpkeep lib now st user limit (before ++ [.merge left right]))

variable {lib now st}

theorem Store.Scored.scoresRight (h : st.Scored) (call : MemoryCall N) : ScoresRight lib now st call := by
  refine ⟨?_, ?_, ?_, ?_⟩
  · rintro user id input rfl hscope hexisting hnone hdetected
    have hfresh : ¬ st.items.any (fun item => item.id = id) = true := by
      intro hany
      obtain ⟨item, hitem, hid⟩ := List.any_eq_true.mp hany
      exact row?_eq_none_iff.mp hnone item hitem (of_decide_eq_true hid)
    refine ⟨input.row lib now user id, ?_, if_pos hdetected, ?_⟩
    · rw [AgentService.perform, createMemory, hscope, hexisting]
      dsimp only
      rw [if_neg hfresh, Store.row?]
      show (completeMemory lib now user input id _).1.items.find? _ = _
      rw [completeMemory_items]
      exact row?_insert_self (input.row lib now user id) hnone
    · show input.storedConfidence lib ≤ 35
      rw [CreateInput.storedConfidence, if_pos hdetected]
      exact min_le_left _ _
  · rintro user id input item rfl hscope hexisting
    rw [AgentService.perform, createMemory, hscope, hexisting]
    exact raises_reinforceMemory h (existing_mem hexisting).1 input
  · rintro user id input rfl hstatus hconfidence himportance
    exact raises_updateMemory h hstatus hconfidence himportance
  · rintro user limit before left right after rfl hsteps
    have hduring : (duringUpkeep lib now st user limit before).Scored := by
      refine List.foldlRecOn (motive := Store.Scored) _ _ (h.of_items (hydrateMemories_items _)) ?_
      intro st' hst' u hu
      exact hst'.run (due_of_mem_upkeep (hsteps ▸ List.mem_append_left _ hu))
    have hstep : duringUpkeep lib now st user limit (before ++ [.merge left right]) =
        Upkeep.run now user (duringUpkeep lib now st user limit before) (.merge left right) :=
      List.foldl_append
    rw [hstep]
    exact raises_merge hduring left right

/-- **The scores of every memory are whole numbers from 0 to 100**, a memory with an injection starts
suspended with a confidence of at most 35, and no reinforcement lowers a score. -/
theorem scores_of_run {as : List (MemoryCall N × Int)} {st : Store N}
    (h : Run (Guarded (MemoryStep lib) fun _ a => Enforced a.1) .empty as st) :
    (∀ item ∈ st.items, item.Scored) ∧
      ∀ (call : MemoryCall N) (now : Int), ScoresRight lib now st call := by
  have hscored : st.Scored := by
    refine h.invariant scored_empty fun s a s' hs hstep => ?_
    obtain ⟨rfl, hcall⟩ := hstep
    exact hs.perform hcall
  exact ⟨hscored.rows, fun call now => hscored.scoresRight call⟩

/-- One memory has been created, without scores. -/
theorem scores_of_run_created :
    (∀ item ∈ expiredStore.items, item.Scored) ∧
      ∀ (call : MemoryCall Int) (now : Int), ScoresRight promptLibrary now expiredStore call := by
  have hrun : Run (Guarded (MemoryStep promptLibrary) fun _ a => Enforced a.1) .empty
      [(.create keeper (JsText.of "1") (plainInput "db down" 1 1), 1)] expiredStore :=
    Run.nil.snoc ⟨rfl, .api none none, rfl, rfl⟩
  exact scores_of_run hrun

end Runs

end AgentService
