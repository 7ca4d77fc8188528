import BoringPanel.Lib.GoText
import BoringPanel.Lib.PlannedOrder

/-!
# The processors of the logs pipeline

`buildCollectorPipelineProcessorsList` puts the processors of the log pipelines into the list of
processors of the collector's logs pipeline, where there are others too. It walks over the planned
names and over the list at the same time, by positions; over names without repetition this is
`PlannedOrder.merge` (`buildCollectorPipelineProcessorsList_eq_merge`). A name that is planned twice
ends in the list twice, which is noticed at the end: the list is left without its old processors and
without those that it had not had before (`buildCollectorPipelineProcessorsList_of_duplicate`).
-/

namespace QueryService.LogParsingPipeline

/-- `constants.LogsPPLPfx`. -/
def logsPPLPfx : String := "signozlogspipeline/pipeline_"

/-- `constants.OldLogsPPLPfx`. -/
def oldLogsPPLPfx : String := "logstransform/pipeline_"

def hasSignozPipelineProcessorPrefix (procName : String) : Bool :=
  Go.hasPrefix procName logsPPLPfx || Go.hasPrefix procName oldLogsPPLPfx

/-- The loop of `checkDuplicateString`, with the names that were seen. -/
def checkDuplicateFrom (seen : List String) : List String → Bool
  | [] => false
  | processor :: pipeline =>
    if processor ∈ seen then true else checkDuplicateFrom (processor :: seen) pipeline

def checkDuplicateString (pipeline : List String) : Bool := checkDuplicateFrom [] pipeline

/-- The position of each name; of several the last. -/
def existingPositions (pipeline : List String) : String → Option Nat :=
  pipeline.zipIdx.foldl (fun existing p => Function.update existing p.1 (some p.2)) fun _ => none

/-- The positions of the planned names, and which planned name has a position. -/
structure SpecPositions where
  specVsExistingMap : Nat → Option Nat
  existingVsSpec : Nat → Option Nat

def specPositions (pipeline signozPipelineProcessorNames : List String) : SpecPositions :=
  signozPipelineProcessorNames.zipIdx.foldl
    (fun maps m =>
      match existingPositions pipeline m.1 with
      | some loc =>
        { specVsExistingMap := Function.update maps.specVsExistingMap m.2 (some loc)
          existingVsSpec := Function.update maps.existingVsSpec loc (some m.2) }
      | none => maps)
    ⟨fun _ => none, fun _ => none⟩

/-- The variables of the loop over the planned names. -/
structure Merging where
  specVsExistingMap : Nat → Option Nat
  lastMatched : Nat
  newPipeline : List String

section Loop

variable (pipeline : List String) (existingVsSpec : Nat → Option Nat)

/-- One turn of the inner loop. -/
def passOver (s : Merging) (j : Nat) : Merging :=
  let procName := pipeline.getD j ""
  if hasSignozPipelineProcessorPrefix procName then
    -- A position that no planned name has reads as 0.
    { s with specVsExistingMap :=
        Function.update s.specVsExistingMap ((existingVsSpec j).getD 0) none }
  else { s with newPipeline := s.newPipeline ++ [procName] }

/-- One turn of the loop over the planned names. -/
def mergeName (s : Merging) (m : String × Nat) : Merging :=
  match s.specVsExistingMap m.2 with
  | some loc =>
    let s := (List.range' s.lastMatched (loc - s.lastMatched)).foldl (passOver pipeline existingVsSpec) s
    { s with newPipeline := s.newPipeline ++ [pipeline.getD loc ""], lastMatched := loc + 1 }
  | none => { s with newPipeline := s.newPipeline ++ [m.1] }

end Loop

/-- The list after the loop. -/
def Merging.result (pipeline : List String) (s : Merging) : List String :=
  if s.lastMatched < pipeline.length then s.newPipeline ++ pipeline.drop s.lastMatched
  else s.newPipeline

/-- The list without the old processors that are not used any more. -/
def withoutOldProcessors (currentCollectorProcessors signozPipelineProcessorNames : List String) :
    List String :=
  currentCollectorProcessors.filter fun procName =>
    procName ∈ signozPipelineProcessorNames || !hasSignozPipelineProcessorPrefix procName

/-- The list of processors, and the text of the error with it. -/
def buildCollectorPipelineProcessorsList
    (currentCollectorProcessors signozPipelineProcessorNames : List String) :
    List String × Option String :=
  let pipeline := withoutOldProcessors currentCollectorProcessors signozPipelineProcessorNames
  let maps := specPositions pipeline signozPipelineProcessorNames
  let s := signozPipelineProcessorNames.zipIdx.foldl (mergeName pipeline maps.existingVsSpec)
    ⟨maps.specVsExistingMap, 0, []⟩
  let newPipeline := s.result pipeline
  if checkDuplicateString newPipeline then
    (pipeline, some ("the effective config has an unexpected processor sequence: [" ++
      Go.join " " pipeline ++ "]"))
  else (newPipeline, none)

/-! ### Repetitions -/

theorem checkDuplicateFrom_iff {seen pipeline : List String} :
    checkDuplicateFrom seen pipeline ↔ ¬ pipeline.Nodup ∨ ∃ p ∈ pipeline, p ∈ seen := by
  induction pipeline generalizing seen with
  | nil => simp [checkDuplicateFrom]
  | cons p pipeline ih =>
    rw [checkDuplicateFrom]
    by_cases hp : p ∈ seen
    · rw [if_pos hp]
      exact iff_of_true rfl (Or.inr ⟨p, List.mem_cons_self, hp⟩)
    · rw [if_neg hp, ih, List.nodup_cons]
      constructor
      · rintro (h | ⟨q, hq, hseen⟩)
        · exact Or.inl fun hnd => h hnd.2
        · rcases List.mem_cons.mp hseen with rfl | hseen
          · exact Or.inl fun hnd => hnd.1 hq
          · exact Or.inr ⟨q, List.mem_cons_of_mem _ hq, hseen⟩
      · rintro (h | ⟨q, hq, hseen⟩)
        · by_cases hmem : p ∈ pipeline
          · exact Or.inr ⟨p, hmem, List.mem_cons_self⟩
          · exact Or.inl fun hnd => h ⟨hmem, hnd⟩
        · rcases List.mem_cons.mp hq with rfl | hq
          · exact absurd hseen hp
          · exact Or.inr ⟨q, hq, List.mem_cons_of_mem _ hseen⟩

theorem checkDuplicateString_iff {pipeline : List String} :
    checkDuplicateString pipeline ↔ ¬ pipeline.Nodup := by
  rw [checkDuplicateString, checkDuplicateFrom_iff]
  simp

/-! ### Positions -/

theorem existingPositions_append (pipeline : List String) (p : String) :
    existingPositions (pipeline ++ [p]) =
      Function.update (existingPositions pipeline) p (some pipeline.length) := by
  rw [existingPositions, List.zipIdx_append, List.foldl_append]
  simp [existingPositions]

/-- A name stands at its position. -/
theorem getElem?_of_existingPositions {pipeline : List String} {name : String} {loc : Nat}
    (h : existingPositions pipeline name = some loc) : pipeline[loc]? = some name := by
  induction pipeline using List.reverseRecOn generalizing loc with
  | nil => cases h
  | append_singleton pipeline p ih =>
    rw [existingPositions_append, Function.update_apply] at h
    split at h
    · rename_i heq
      rw [← Option.some.inj h, heq]
      simp
    · have hget := ih h
      obtain ⟨hlt, -⟩ := List.getElem?_eq_some_iff.mp hget
      rw [List.getElem?_append_left hlt, hget]

theorem existingPositions_eq_some_iff {pipeline : List String} (hnd : pipeline.Nodup)
    {name : String} {loc : Nat} :
    existingPositions pipeline name = some loc ↔ pipeline[loc]? = some name := by
  refine ⟨getElem?_of_existingPositions, fun h => ?_⟩
  induction pipeline using List.reverseRecOn with
  | nil => cases h
  | append_singleton pipeline p ih =>
    obtain ⟨hl, -, hdisj⟩ := List.nodup_append.mp hnd
    rw [existingPositions_append, Function.update_apply]
    by_cases hlt : loc < pipeline.length
    · rw [List.getElem?_append_left hlt] at h
      have hne : name ≠ p := hdisj _ (List.mem_of_getElem? h) _ (List.mem_singleton_self p)
      rw [if_neg hne]
      exact ih hl h
    · rw [List.getElem?_append_right (not_lt.mp hlt)] at h
      obtain ⟨hlen, rfl⟩ := List.getElem?_eq_some_iff.mp h
      have hloc : loc = pipeline.length := by
        rw [List.length_singleton] at hlen
        omega
      simp [hloc]

theorem specPositions_append (pipeline names : List String) (m : String) :
    specPositions pipeline (names ++ [m]) =
      match existingPositions pipeline m with
      | some loc =>
        { specVsExistingMap := Function.update (specPositions pipeline names).specVsExistingMap
            names.length (some loc)
          existingVsSpec := Function.update (specPositions pipeline names).existingVsSpec loc
            (some names.length) }
      | none => specPositions pipeline names := by
  rw [specPositions, List.zipIdx_append, List.foldl_append]
  simp [specPositions]

theorem specVsExistingMap_eq (pipeline names : List String) (i : Nat) :
    (specPositions pipeline names).specVsExistingMap i =
      names[i]?.bind (existingPositions pipeline) := by
  induction names using List.reverseRecOn with
  | nil => rfl
  | append_singleton names m ih =>
    rw [specPositions_append]
    rcases lt_trichotomy i names.length with hlt | rfl | hgt
    · rw [List.getElem?_append_left hlt, ← ih]
      cases existingPositions pipeline m with
      | none => rfl
      | some loc => exact Function.update_of_ne hlt.ne _ _
    · rw [List.getElem?_append_right le_rfl]
      rw [List.getElem?_eq_none le_rfl] at ih
      cases hloc : existingPositions pipeline m with
      | none => simpa [hloc] using ih
      | some loc => simp [hloc]
    · rw [List.getElem?_append_right hgt.le]
      rw [List.getElem?_eq_none hgt.le] at ih
      rw [List.getElem?_eq_none (by rw [List.length_singleton]; omega)]
      cases existingPositions pipeline m with
      | none => exact ih
      | some loc => exact (Function.update_of_ne hgt.ne' _ _).trans ih

/-- A planned name that stands at a position is the one that is found for it. -/
theorem existingVsSpec_eq {pipeline names : List String} (hpipeline : pipeline.Nodup)
    (hnames : names.Nodup) {i loc : Nat} {m : String} (hm : names[i]? = some m)
    (hloc : pipeline[loc]? = some m) :
    (specPositions pipeline names).existingVsSpec loc = some i := by
  induction names using List.reverseRecOn with
  | nil => cases hm
  | append_singleton names n ih =>
    obtain ⟨hl, -, hdisj⟩ := List.nodup_append.mp hnames
    rw [specPositions_append]
    by_cases hlt : i < names.length
    · rw [List.getElem?_append_left hlt] at hm
      have hne : m ≠ n := hdisj _ (List.mem_of_getElem? hm) _ (List.mem_singleton_self n)
      cases hexisting : existingPositions pipeline n with
      | none => exact ih hl hm
      | some loc' =>
        have hn := getElem?_of_existingPositions hexisting
        have hneloc : loc ≠ loc' := by
          rintro rfl
          exact hne (Option.some.inj (hloc.symm.trans hn))
        exact (Function.update_of_ne hneloc _ _).trans (ih hl hm)
    · rw [List.getElem?_append_right (not_lt.mp hlt)] at hm
      obtain ⟨hlen, rfl⟩ := List.getElem?_eq_some_iff.mp hm
      have hi : i = names.length := by
        rw [List.length_singleton] at hlen
        omega
      have hexisting : existingPositions pipeline n = some loc := by
        rw [existingPositions_eq_some_iff hpipeline]
        simpa [hi] using hloc
      simp [hexisting, hi]

/-! ### The inner loop -/

section PassOver

variable (pipeline : List String) (existingVsSpec : Nat → Option Nat)

/-- The foreign processors between two positions are taken over. -/
theorem foldl_passOver_newPipeline (k a : Nat) (h : a + k ≤ pipeline.length) (s : Merging) :
    ((List.range' a k).foldl (passOver pipeline existingVsSpec) s).newPipeline =
      s.newPipeline ++ ((pipeline.drop a).take k).filter
        fun procName => !hasSignozPipelineProcessorPrefix procName := by
  induction k generalizing a s with
  | zero => simp
  | succ k ih =>
    have ha : a < pipeline.length := by omega
    have hget : pipeline.getD a "" = pipeline[a] := by simp [List.getD, ha]
    rw [List.range'_succ, List.foldl_cons, ih (a + 1) (by omega), List.drop_eq_getElem_cons ha,
      List.take_succ_cons, List.filter_cons, passOver, hget]
    by_cases hp : hasSignozPipelineProcessorPrefix pipeline[a]
    · simp [hp]
    · simp [hp]

/-- The managed processors between two positions lose theirs. -/
theorem foldl_passOver_specVsExistingMap (positions : List Nat) (s : Merging) (i : Nat) :
    (positions.foldl (passOver pipeline existingVsSpec) s).specVsExistingMap i =
      if ∃ j ∈ positions, hasSignozPipelineProcessorPrefix (pipeline.getD j "") ∧
        (existingVsSpec j).getD 0 = i then none else s.specVsExistingMap i := by
  induction positions generalizing s with
  | nil => simp
  | cons j positions ih =>
    rw [List.foldl_cons, ih, passOver]
    simp only [List.exists_mem_cons_iff]
    by_cases hrest : ∃ j ∈ positions, hasSignozPipelineProcessorPrefix (pipeline.getD j "") ∧
        (existingVsSpec j).getD 0 = i
    · rw [if_pos hrest, if_pos (Or.inr hrest)]
    · rw [if_neg hrest]
      by_cases hp : hasSignozPipelineProcessorPrefix (pipeline.getD j "")
      · rw [if_pos hp]
        change Function.update _ _ _ i = _
        by_cases hi : (existingVsSpec j).getD 0 = i
        · rw [hi, Function.update_self, if_pos (Or.inl ⟨hp, rfl⟩)]
        · rw [Function.update_of_ne (Ne.symm hi), if_neg]
          exact fun h => h.elim (fun hj => hi hj.2) hrest
      · rw [if_neg hp, if_neg]
        exact fun h => h.elim (fun hj => hp hj.1) hrest

end PassOver

/-! ### The loop over the planned names -/

section MergeNames

variable {pipeline names : List String}

theorem Merging.result_eq (pipeline : List String) (s : Merging) :
    s.result pipeline = s.newPipeline ++ pipeline.drop s.lastMatched := by
  rw [Merging.result]
  split
  · rfl
  · rename_i h
    rw [List.drop_eq_nil_of_le (not_lt.mp h), List.append_nil]

/-- What has a position in the map stands there. -/
structure Placed (pipeline names : List String) (s : Merging) : Prop where
  lastMatched_le : s.lastMatched ≤ pipeline.length
  getElem? : ∀ i loc, s.specVsExistingMap i = some loc →
    ∃ m, names[i]? = some m ∧ pipeline[loc]? = some m

/-- A turn of the loop where the name has a position. -/
theorem mergeName_some {s : Merging} {m : String} {i loc : Nat} (existingVsSpec : Nat → Option Nat)
    (hspec : s.specVsExistingMap i = some loc) (hlast : s.lastMatched ≤ pipeline.length)
    (hloc : pipeline[loc]? = some m) :
    (mergeName pipeline existingVsSpec s (m, i)).newPipeline =
        s.newPipeline ++ ((pipeline.drop s.lastMatched).take (loc - s.lastMatched)).filter
          (fun procName => !hasSignozPipelineProcessorPrefix procName) ++ [m] ∧
      (mergeName pipeline existingVsSpec s (m, i)).lastMatched = loc + 1 ∧
      (mergeName pipeline existingVsSpec s (m, i)).specVsExistingMap =
        ((List.range' s.lastMatched (loc - s.lastMatched)).foldl
          (passOver pipeline existingVsSpec) s).specVsExistingMap := by
  obtain ⟨hlt, heq⟩ := List.getElem?_eq_some_iff.mp hloc
  have hget : pipeline.getD loc "" = m := by simp [List.getD, hloc]
  rw [mergeName, hspec]
  refine ⟨?_, rfl, rfl⟩
  change _ ++ [pipeline.getD loc ""] = _
  rw [foldl_passOver_newPipeline pipeline existingVsSpec _ _ (by omega), hget]

theorem mergeName_none {s : Merging} {m : String} {i : Nat} (existingVsSpec : Nat → Option Nat)
    (hspec : s.specVsExistingMap i = none) :
    mergeName pipeline existingVsSpec s (m, i) =
      { s with newPipeline := s.newPipeline ++ [m] } := by
  rw [mergeName, hspec]

theorem Placed.step {s : Merging} (h : Placed pipeline names s) (existingVsSpec : Nat → Option Nat)
    {m : String} {i : Nat} (hm : names[i]? = some m) :
    Placed pipeline names (mergeName pipeline existingVsSpec s (m, i)) ∧
      (hasSignozPipelineProcessorPrefix m →
        (mergeName pipeline existingVsSpec s (m, i)).newPipeline.filter
            hasSignozPipelineProcessorPrefix =
          s.newPipeline.filter hasSignozPipelineProcessorPrefix ++ [m]) := by
  cases hspec : s.specVsExistingMap i with
  | none =>
    rw [mergeName_none existingVsSpec hspec]
    refine ⟨⟨h.lastMatched_le, h.getElem?⟩, fun hp => ?_⟩
    simp [hp]
  | some loc =>
    obtain ⟨m', hm', hloc⟩ := h.getElem? i loc hspec
    obtain rfl : m = m' := Option.some.inj (hm.symm.trans hm')
    obtain ⟨hnew, hlast, hmap⟩ := mergeName_some existingVsSpec hspec h.lastMatched_le hloc
    obtain ⟨hlt, -⟩ := List.getElem?_eq_some_iff.mp hloc
    refine ⟨⟨by omega, fun i' loc' hi' => ?_⟩, fun hp => ?_⟩
    · rw [hmap, foldl_passOver_specVsExistingMap] at hi'
      split at hi'
      · cases hi'
      · exact h.getElem? i' loc' hi'
    · rw [hnew, List.filter_append, List.filter_append, List.filter_filter]
      simp [hp]

/-- Every planned name is put into the list. -/
theorem Placed.filter_foldl {s : Merging} (h : Placed pipeline names s)
    (existingVsSpec : Nat → Option Nat)
    (hmanaged : ∀ n ∈ names, hasSignozPipelineProcessorPrefix n) (rest : List String) (i : Nat)
    (hrest : names.drop i = rest) :
    ((rest.zipIdx i).foldl (mergeName pipeline existingVsSpec) s).newPipeline.filter
        hasSignozPipelineProcessorPrefix =
      s.newPipeline.filter hasSignozPipelineProcessorPrefix ++ rest := by
  induction rest generalizing i s with
  | nil => simp
  | cons m rest ih =>
    have hm : names[i]? = some m := by
      rw [← List.head?_drop, hrest, List.head?_cons]
    obtain ⟨hplaced, hfilter⟩ := h.step existingVsSpec hm
    have htail : names.drop (i + 1) = rest := by
      rw [← List.tail_drop, hrest, List.tail_cons]
    rw [List.zipIdx_cons, List.foldl_cons, ih hplaced (i + 1) htail,
      hfilter (hmanaged m (List.mem_of_getElem? hm)), List.append_assoc, List.singleton_append]

/-- The planned names that are left, and where they stand. -/
structure Aligned (pipeline names : List String) (i : Nat) (s : Merging) : Prop where
  lastMatched_le : s.lastMatched ≤ pipeline.length
  spec_iff : ∀ i', i ≤ i' → ∀ loc, s.specVsExistingMap i' = some loc ↔
    s.lastMatched ≤ loc ∧ ∃ m, names[i']? = some m ∧ pipeline[loc]? = some m

section Refinement

variable (hpipeline : pipeline.Nodup) (hnames : names.Nodup)
  (hmanaged : ∀ n ∈ names, hasSignozPipelineProcessorPrefix n)
  (hplanned : ∀ n ∈ pipeline, hasSignozPipelineProcessorPrefix n → n ∈ names)

include hpipeline hnames hmanaged hplanned

/-- After a name with a position, those behind it keep theirs. -/
theorem Aligned.step_some {i loc : Nat} {s : Merging} {m : String} (h : Aligned pipeline names i s)
    (hm : names[i]? = some m) (hspec : s.specVsExistingMap i = some loc)
    (hloc : pipeline[loc]? = some m) :
    Aligned pipeline names (i + 1)
      (mergeName pipeline (specPositions pipeline names).existingVsSpec s (m, i)) := by
  obtain ⟨-, hlast, hmap⟩ :=
    mergeName_some (specPositions pipeline names).existingVsSpec hspec h.lastMatched_le hloc
  obtain ⟨hlt, -⟩ := List.getElem?_eq_some_iff.mp hloc
  refine ⟨by omega, fun i' hi' loc' => ?_⟩
  rw [hmap, foldl_passOver_specVsExistingMap, hlast]
  constructor
  · intro hsome
    split at hsome
    · cases hsome
    rename_i hkept
    obtain ⟨hle, m', hm', hloc'⟩ := (h.spec_iff i' (by omega) loc').mp hsome
    refine ⟨?_, m', hm', hloc'⟩
    by_contra hlt'
    have hne : loc' ≠ loc := by
      rintro rfl
      have hmm : m = m' := Option.some.inj (hloc.symm.trans hloc')
      have : i = i' := (List.getElem?_inj (List.getElem?_eq_some_iff.mp hm).1 hnames).mp
        (hm.trans (hmm ▸ hm'.symm))
      omega
    -- Otherwise it stood before the name, and lost its position on the way.
    refine hkept ⟨loc', ?_, ?_, ?_⟩
    · rw [List.mem_range'_1]
      omega
    · rw [List.getD, hloc']
      exact hmanaged m' (List.mem_of_getElem? hm')
    · rw [existingVsSpec_eq hpipeline hnames hm' hloc', Option.getD_some]
  · rintro ⟨hle, m', hm', hloc'⟩
    have hle' : s.lastMatched ≤ loc' := by
      have := (h.spec_iff i le_rfl loc).mp hspec
      omega
    rw [if_neg, (h.spec_iff i' (by omega) loc').mpr ⟨hle', m', hm', hloc'⟩]
    rintro ⟨j, hj, hp, hspecj⟩
    rw [List.mem_range'_1] at hj
    have hjlt : j < pipeline.length := by omega
    have hgetj : pipeline[j]? = some pipeline[j] := List.getElem?_eq_getElem hjlt
    rw [List.getD, hgetj, Option.getD_some] at hp
    obtain ⟨i'', hi''⟩ := List.mem_iff_getElem?.mp
      (hplanned _ (List.getElem_mem hjlt) hp)
    rw [existingVsSpec_eq hpipeline hnames hi'' hgetj, Option.getD_some] at hspecj
    have hjj : pipeline[j]? = pipeline[loc']? := by
      rw [hgetj, hloc', ← hi'', ← hm', hspecj]
    have := (List.getElem?_inj hjlt hpipeline).mp hjj
    omega

omit hpipeline hnames hmanaged hplanned in
theorem Aligned.step_none {i : Nat} {s : Merging} {m : String} (h : Aligned pipeline names i s)
    (existingVsSpec : Nat → Option Nat) (hspec : s.specVsExistingMap i = none) :
    Aligned pipeline names (i + 1) (mergeName pipeline existingVsSpec s (m, i)) := by
  rw [mergeName_none existingVsSpec hspec]
  exact ⟨h.lastMatched_le, fun i' hi' => h.spec_iff i' (by omega)⟩

/-- The loop merges the names that are left into the processors that are left. -/
theorem Aligned.result_foldl {i : Nat} {s : Merging} (h : Aligned pipeline names i s)
    (rest : List String) (hrest : names.drop i = rest) :
    ((rest.zipIdx i).foldl
        (mergeName pipeline (specPositions pipeline names).existingVsSpec) s).result pipeline =
      s.newPipeline ++ PlannedOrder.merge hasSignozPipelineProcessorPrefix
        (pipeline.drop s.lastMatched) rest := by
  induction rest generalizing i s with
  | nil => exact s.result_eq pipeline
  | cons m rest ih =>
    have hm : names[i]? = some m := by
      rw [← List.head?_drop, hrest, List.head?_cons]
    have htail : names.drop (i + 1) = rest := by
      rw [← List.tail_drop, hrest, List.tail_cons]
    rw [List.zipIdx_cons, List.foldl_cons]
    cases hspec : s.specVsExistingMap i with
    | none =>
      rw [ih (h.step_none _ hspec) htail, mergeName_none _ hspec,
        PlannedOrder.merge_of_not_mem, List.append_assoc, List.singleton_append]
      intro hmem
      obtain ⟨k, hk⟩ := List.mem_iff_getElem?.mp hmem
      rw [List.getElem?_drop] at hk
      have := (h.spec_iff i le_rfl (s.lastMatched + k)).mpr ⟨by omega, m, hm, hk⟩
      rw [hspec] at this
      cases this
    | some loc =>
      obtain ⟨hle, m', hm', hloc⟩ := (h.spec_iff i le_rfl loc).mp hspec
      obtain rfl : m = m' := Option.some.inj (hm.symm.trans hm')
      obtain ⟨hnew, hlast, -⟩ := mergeName_some (specPositions pipeline names).existingVsSpec hspec
        h.lastMatched_le hloc
      have hstep := h.step_some hpipeline hnames hmanaged hplanned hm hspec hloc
      -- The processors that are left, split at the name.
      have hsplit : pipeline.drop s.lastMatched =
          (pipeline.drop s.lastMatched).take (loc - s.lastMatched) ++
            m :: pipeline.drop (loc + 1) := by
        obtain ⟨hlt, heq⟩ := List.getElem?_eq_some_iff.mp hloc
        have hdrop : pipeline.drop loc = m :: pipeline.drop (loc + 1) := by
          rw [List.drop_eq_getElem_cons hlt, heq]
        rw [← hdrop]
        have := List.take_append_drop (loc - s.lastMatched) (pipeline.drop s.lastMatched)
        rw [List.drop_drop, Nat.add_sub_cancel' hle] at this
        exact this.symm
      have hnotin : m ∉ (pipeline.drop s.lastMatched).take (loc - s.lastMatched) := by
        have hnd : (pipeline.drop s.lastMatched).Nodup :=
          hpipeline.sublist (List.drop_sublist _ _)
        rw [hsplit] at hnd
        exact fun hmem => List.disjoint_of_nodup_append hnd hmem List.mem_cons_self
      rw [ih hstep htail, hnew, hlast, hsplit, PlannedOrder.merge_split _ hnotin,
        ← hsplit]
      simp

end Refinement

end MergeNames

/-! ### The list -/

section List

variable {current names : List String} (hmanaged : ∀ n ∈ names, hasSignozPipelineProcessorPrefix n)

theorem placed_specPositions (pipeline names : List String) :
    Placed pipeline names ⟨(specPositions pipeline names).specVsExistingMap, 0, []⟩ := by
  refine ⟨Nat.zero_le _, fun i loc h => ?_⟩
  change (specPositions pipeline names).specVsExistingMap i = some loc at h
  rw [specVsExistingMap_eq, Option.bind_eq_some_iff] at h
  obtain ⟨m, hm, hloc⟩ := h
  exact ⟨m, hm, getElem?_of_existingPositions hloc⟩

theorem aligned_specPositions {pipeline : List String} (hpipeline : pipeline.Nodup)
    (names : List String) :
    Aligned pipeline names 0 ⟨(specPositions pipeline names).specVsExistingMap, 0, []⟩ := by
  refine ⟨Nat.zero_le _, fun i _ loc => ?_⟩
  change (specPositions pipeline names).specVsExistingMap i = some loc ↔ _
  rw [specVsExistingMap_eq, Option.bind_eq_some_iff]
  simp [existingPositions_eq_some_iff hpipeline]

theorem withoutOldProcessors_foreign (current names : List String) :
    (withoutOldProcessors current names).filter
        (fun procName => !hasSignozPipelineProcessorPrefix procName) =
      current.filter fun procName => !hasSignozPipelineProcessorPrefix procName := by
  rw [withoutOldProcessors, List.filter_filter]
  refine List.filter_congr fun procName _ => ?_
  cases hasSignozPipelineProcessorPrefix procName <;> simp

theorem withoutOldProcessors_planned {n : String} (h : n ∈ withoutOldProcessors current names)
    (hn : hasSignozPipelineProcessorPrefix n) : n ∈ names := by
  rw [withoutOldProcessors, List.mem_filter] at h
  simpa [hn] using h.2

/-- Nothing is left out where every managed processor is planned. -/
theorem withoutOldProcessors_eq_self
    (h : ∀ n ∈ current, hasSignozPipelineProcessorPrefix n → n ∈ names) :
    withoutOldProcessors current names = current := by
  refine List.filter_eq_self.mpr fun n hn => ?_
  by_cases hp : hasSignozPipelineProcessorPrefix n
  · simp [h n hn hp]
  · simp [hp]

include hmanaged

/-- What the list is to be: the foreign processors as they were, and the planned ones in their order. -/
structure Merged (current names newPipeline : List String) : Prop where
  nodup : newPipeline.Nodup
  foreign : newPipeline.filter (fun procName => !hasSignozPipelineProcessorPrefix procName) =
    current.filter fun procName => !hasSignozPipelineProcessorPrefix procName
  planned : newPipeline.filter hasSignozPipelineProcessorPrefix = names

theorem merged_merge (hcurrent : current.Nodup) (hnames : names.Nodup) :
    Merged current names (PlannedOrder.merge hasSignozPipelineProcessorPrefix
      (withoutOldProcessors current names) names) := by
  have hpipeline : (withoutOldProcessors current names).Nodup := hcurrent.filter _
  have hforeign := (PlannedOrder.filter_foreign_merge hmanaged (withoutOldProcessors current names)).trans
    (withoutOldProcessors_foreign current names)
  have hplanned := PlannedOrder.filter_managed_merge hmanaged hpipeline fun _ => withoutOldProcessors_planned
  refine ⟨PlannedOrder.nodup_of_filters hasSignozPipelineProcessorPrefix ?_ ?_, hforeign, hplanned⟩
  · rw [hplanned]
    exact hnames
  · rw [hforeign]
    exact hcurrent.filter _

/-- Over names without repetition the processors are brought into the planned order. -/
theorem buildCollectorPipelineProcessorsList_eq_merge (hcurrent : current.Nodup)
    (hnames : names.Nodup) :
    buildCollectorPipelineProcessorsList current names =
      (PlannedOrder.merge hasSignozPipelineProcessorPrefix (withoutOldProcessors current names) names,
        none) := by
  have hpipeline : (withoutOldProcessors current names).Nodup := hcurrent.filter _
  have hplanned : ∀ n ∈ withoutOldProcessors current names,
      hasSignozPipelineProcessorPrefix n → n ∈ names := fun _ => withoutOldProcessors_planned
  have hresult := (aligned_specPositions hpipeline names).result_foldl hpipeline hnames hmanaged
    hplanned names rfl
  have hnodup := (merged_merge hmanaged hcurrent hnames).nodup
  rw [buildCollectorPipelineProcessorsList]
  simp only [hresult, List.nil_append, List.drop_zero]
  rw [if_neg]
  rw [checkDuplicateString_iff, not_not]
  exact hnodup

/-- A list that is what it is to be stays as it is. -/
theorem buildCollectorPipelineProcessorsList_of_merged (hnames : names.Nodup) {newPipeline : List String}
    (h : Merged current names newPipeline) :
    buildCollectorPipelineProcessorsList newPipeline names = (newPipeline, none) := by
  have hself : withoutOldProcessors newPipeline names = newPipeline := by
    refine withoutOldProcessors_eq_self fun n hn hp => ?_
    rw [← h.planned]
    exact List.mem_filter.mpr ⟨hn, hp⟩
  rw [buildCollectorPipelineProcessorsList_eq_merge hmanaged h.nodup hnames, hself,
    PlannedOrder.merge_eq_self hasSignozPipelineProcessorPrefix h.planned]

/-- **Over names without repetition** there is no error, the list is what it is to be, and it stays so when
the names are put into it again. -/
theorem buildCollectorPipelineProcessorsList_merges (hcurrent : current.Nodup) (hnames : names.Nodup) :
    ∃ newPipeline, buildCollectorPipelineProcessorsList current names = (newPipeline, none) ∧
      Merged current names newPipeline ∧
      buildCollectorPipelineProcessorsList newPipeline names = (newPipeline, none) := by
  have hmerged := merged_merge hmanaged hcurrent hnames
  exact ⟨_, buildCollectorPipelineProcessorsList_eq_merge hmanaged hcurrent hnames, hmerged,
    buildCollectorPipelineProcessorsList_of_merged hmanaged hnames hmerged⟩

omit hmanaged in
/-- Two planned names that stand the other way round, with foreign processors around them. -/
theorem buildCollectorPipelineProcessorsList_merges_swapped :
    ∃ newPipeline, buildCollectorPipelineProcessorsList
        ["batch", logsPPLPfx ++ "a", "memory", logsPPLPfx ++ "b"] [logsPPLPfx ++ "b", logsPPLPfx ++ "a"] =
          (newPipeline, none) ∧
      Merged ["batch", logsPPLPfx ++ "a", "memory", logsPPLPfx ++ "b"]
        [logsPPLPfx ++ "b", logsPPLPfx ++ "a"] newPipeline ∧
      buildCollectorPipelineProcessorsList newPipeline [logsPPLPfx ++ "b", logsPPLPfx ++ "a"] =
        (newPipeline, none) :=
  buildCollectorPipelineProcessorsList_merges (by decide +kernel) (by decide +kernel) (by decide +kernel)

/-- Over names with a repetition the list is left as it was, without the old processors. -/
theorem buildCollectorPipelineProcessorsList_of_duplicate (hnames : ¬ names.Nodup) :
    (buildCollectorPipelineProcessorsList current names).1 = withoutOldProcessors current names := by
  have hfilter := (placed_specPositions (withoutOldProcessors current names) names).filter_foldl
    (specPositions (withoutOldProcessors current names) names).existingVsSpec hmanaged names 0 rfl
  rw [buildCollectorPipelineProcessorsList]
  simp only [Merging.result_eq]
  rw [if_pos]
  rw [checkDuplicateString_iff]
  refine fun hnd => hnames ?_
  have hnew := (hnd.of_append_left).filter hasSignozPipelineProcessorPrefix
  rw [hfilter] at hnew
  simpa using hnew

end List

end QueryService.LogParsingPipeline
