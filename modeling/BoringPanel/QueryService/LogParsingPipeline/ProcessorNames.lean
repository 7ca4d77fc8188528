import BoringPanel.Lib.MarkedNames
import BoringPanel.QueryService.LogParsingPipeline.OperatorChain

/-!
# The names of the processors

`PreparePipelineProcessor` names a processor after the alias of its pipeline, where characters other than
letters, digits and dashes are dashes. A name that is taken gets the index of the pipeline as a suffix,
and may then be the name of an earlier pipeline: the later processor takes the place of the earlier one,
and the name stands in the list twice.

The processors and the names are those that `MarkedNames.newNames` gives to the pipelines deployed
(`preparePipelineProcessor_eq`), so each pipeline keeps its processor if and only if there is no such
clash (`eachHasProcessor_iff`).
-/

namespace QueryService.LogParsingPipeline

open MarkedNames

variable {F : Type} (E : Expressions F)

/-- A pipeline that is enabled, with an operator that is. -/
def Pipeline.deployed (p : Pipeline F) : Bool := p.enabled && p.config.any PipelineOperator.enabled

/-- The pipelines that have a processor, each with its index. -/
def deployedPipelines (pipelines : List (Pipeline F)) : List (Pipeline F × Nat) :=
  pipelines.zipIdx.filter fun p => p.1.deployed

/-- The processor of a pipeline. -/
def pipelineProcessor (p : Pipeline F) : Except BuildError Processor := do
  let operators ← wrapBuildError "failed to prepare operators" (getOperators E p.config)
  let filterExpr ← wrapBuildError "failed to parse pipeline filter" (E.parse p.filter)
  return ⟨processorOperators filterExpr operators⟩

/-- `fmt.Sprintf("%s-%d", name, pipelineIdx)`. -/
def withIndex (name : String) (pipelineIdx : Nat) : String := name ++ "-" ++ toString pipelineIdx

/-- The names that the pipelines ask for, with their indices. -/
def askedNames (pipelines : List (Pipeline F × Nat)) : List (String × Nat) :=
  pipelines.map fun p => (collectorConfProcessorName p.1, p.2)

/-! ### The loop -/

/-- The processors set under their names, one after the other. -/
def PipelineProcessors.addAll (prepared : PipelineProcessors) (names : List String)
    (processors : List Processor) : PipelineProcessors :=
  ⟨OrderedEntries.insertAll (names.zip processors) prepared.processors, prepared.names ++ names⟩

theorem PipelineProcessors.addAll_cons (prepared : PipelineProcessors) (name : String)
    (processor : Processor) (names : List String) (processors : List Processor) :
    (prepared.addAll [name] [processor]).addAll names processors =
      prepared.addAll (name :: names) (processor :: processors) := by
  rw [addAll, addAll, addAll, List.append_assoc, List.singleton_append]
  rfl

theorem addPipelineProcessor_deployed {prepared : PipelineProcessors} (hnamed : Named prepared)
    {p : Pipeline F × Nat} (hp : p.1.deployed) : addPipelineProcessor E prepared p =
      (pipelineProcessor E p.1).map fun processor =>
        prepared.addAll [nextName withIndex prepared.names (collectorConfProcessorName p.1, p.2)]
          [processor] := by
  rw [Pipeline.deployed, Bool.and_eq_true] at hp
  rw [addPipelineProcessor, if_neg (not_not_intro hp.1), pipelineProcessor]
  cases hoperators : getOperators E p.1.config with
  | error err => cases err <;> rfl
  | ok operators =>
    have hne : operators ≠ [] := by
      rw [← List.length_pos_iff, length_of_getOperators E hoperators, List.length_pos_iff_exists_mem]
      obtain ⟨o, ho, henabled⟩ := List.any_eq_true.mp hp.2
      exact ⟨o, List.mem_filter.mpr ⟨ho, henabled⟩⟩
    cases hfilter : wrapBuildError "failed to parse pipeline filter" (E.parse p.1.filter) with
    | error err =>
      simp only [wrapBuildError, bind, Except.bind, if_neg hne]
      rfl
    | ok filterExpr =>
      have hname : (if (OrderedEntries.get (collectorConfProcessorName p.1) prepared.processors).isSome
            then collectorConfProcessorName p.1 ++ "-" ++ toString p.2
            else collectorConfProcessorName p.1) =
          nextName withIndex prepared.names (collectorConfProcessorName p.1, p.2) := by
        rw [nextName, withIndex]
        exact if_congr (hnamed.mem_names_iff _).symm rfl rfl
      simp only [wrapBuildError, bind, Except.bind, if_neg hne, hname]
      rfl

theorem addPipelineProcessor_not_deployed {prepared : PipelineProcessors} {p : Pipeline F × Nat}
    (hp : ¬ p.1.deployed) : addPipelineProcessor E prepared p = .ok prepared := by
  rw [addPipelineProcessor]
  split
  · rfl
  rename_i henabled
  rw [not_not] at henabled
  have hnone : enabledOperators p.1.config = [] := by
    rw [enabledOperators, List.filter_eq_nil_iff]
    intro o ho hon
    refine hp ?_
    rw [Pipeline.deployed, henabled, Bool.true_and]
    exact List.any_eq_true.mpr ⟨o, ho, hon⟩
  have hoperators : getOperators E p.1.config = .ok [] := by
    rw [getOperators_eq, hnone, List.mapM_nil]
    show Except.ok _ = Except.ok _
    rw [chained, linkOperators, setLastOutput_nil, ite_self]
  rw [hoperators]
  rfl

theorem Named.addNext {prepared : PipelineProcessors} (h : Named prepared) {p : Pipeline F × Nat}
    (processor : Processor) : Named (prepared.addAll
      [nextName withIndex prepared.names (collectorConfProcessorName p.1, p.2)] [processor]) := by
  refine h.insert ?_ _
  rw [nextName]
  split
  · rw [withIndex, collectorConfProcessorName, String.append_assoc, String.append_assoc]
    exact hasSignozPipelineProcessorPrefix_append _
  · exact hasSignozPipelineProcessorPrefix_append _

/-- The turns set the processors of the pipelines deployed under the names that these are given. -/
theorem foldlM_addPipelineProcessor (pipelines : List (Pipeline F × Nat)) :
    ∀ {prepared : PipelineProcessors}, Named prepared →
      pipelines.foldlM (addPipelineProcessor E) prepared =
        ((pipelines.filter fun p => p.1.deployed).mapM fun p => pipelineProcessor E p.1).map fun processors =>
          prepared.addAll (newNames withIndex prepared.names
            (askedNames (pipelines.filter fun p => p.1.deployed))) processors := by
  induction pipelines with
  | nil =>
    intro prepared _
    show Except.ok prepared = Except.ok (prepared.addAll [] [])
    rw [PipelineProcessors.addAll, List.append_nil]
    rfl
  | cons p pipelines ih =>
    intro prepared hnamed
    rw [List.foldlM_cons]
    by_cases hp : p.1.deployed
    · rw [List.filter_cons_of_pos (p := fun p : Pipeline F × Nat => p.1.deployed) hp, List.mapM_cons,
        addPipelineProcessor_deployed E hnamed hp]
      cases pipelineProcessor E p.1 with
      | error err => rfl
      | ok processor =>
        show pipelines.foldlM (addPipelineProcessor E) _ = _
        rw [ih (hnamed.addNext processor)]
        cases (pipelines.filter fun p => p.1.deployed).mapM fun p => pipelineProcessor E p.1 with
        | error err => rfl
        | ok processors => exact congrArg Except.ok (PipelineProcessors.addAll_cons _ _ _ _ _)
    · rw [List.filter_cons_of_neg (p := fun p : Pipeline F × Nat => p.1.deployed) hp,
        addPipelineProcessor_not_deployed E hp]
      exact ih hnamed

theorem preparePipelineProcessor_eq (pipelines : List (Pipeline F)) :
    preparePipelineProcessor E pipelines =
      ((deployedPipelines pipelines).mapM fun p => pipelineProcessor E p.1).map fun processors =>
        PipelineProcessors.addAll ⟨[], []⟩
          (newNames withIndex [] (askedNames (deployedPipelines pipelines))) processors :=
  foldlM_addPipelineProcessor E _ named_empty

/-! ### Clashes -/

theorem withIndex_inj {name name' : String} {idx idx' : Nat}
    (h : withIndex name idx = withIndex name' idx') : idx = idx' := by
  have hdigits : ∀ (l : List Char) (n : Nat),
      ((l ++ '-' :: Nat.toDigits 10 n).reverse.takeWhile (· ≠ '-')) = (Nat.toDigits 10 n).reverse := by
    intro l n
    have hdigit : ∀ c ∈ (Nat.toDigits 10 n).reverse, decide (c ≠ '-') = true := by
      intro c hc
      have hdigit := Nat.isDigit_of_mem_toDigits (by decide) (by decide) (List.mem_reverse.mp hc)
      rw [decide_eq_true_iff]
      rintro rfl
      revert hdigit
      decide
    rw [List.reverse_append, List.reverse_cons, List.append_assoc, List.takeWhile_append_of_pos hdigit,
      List.singleton_append, List.takeWhile_cons_of_neg (by decide), List.append_nil]
  have htext : ∀ (name : String) (n : Nat),
      (withIndex name n).toList = name.toList ++ '-' :: Nat.toDigits 10 n := by
    intro name n
    rw [withIndex, String.toList_append, String.toList_append, Nat.toString_eq_repr, Nat.toList_repr,
      List.append_assoc]
    rfl
  have hreverse := hdigits name.toList idx
  rw [← htext, h, htext, hdigits, List.reverse_inj] at hreverse
  have hread : ∀ n, Nat.ofDigitChars 10 (Nat.toDigits 10 n) 0 = n := fun n =>
    Nat.ofDigitChars_toDigits (by decide) (by decide)
  calc idx = Nat.ofDigitChars 10 (Nat.toDigits 10 idx) 0 := (hread idx).symm
    _ = Nat.ofDigitChars 10 (Nat.toDigits 10 idx') 0 := by rw [hreverse]
    _ = idx' := hread idx'

/-- Each pipeline deployed has its processor under a name of its own, in the order of the pipelines. -/
structure EachHasProcessor (pipelines : List (Pipeline F)) (prepared : PipelineProcessors) : Prop where
  distinct : prepared.names.Nodup
  named : ∀ n, (OrderedEntries.get n prepared.processors).isSome ↔ n ∈ prepared.names
  own : ∃ processors,
    List.Forall₂ (fun p processor => pipelineProcessor E p.1 = .ok processor) (deployedPipelines pipelines)
      processors ∧
    List.Forall₂ (fun n processor => OrderedEntries.get n prepared.processors = some processor)
      prepared.names processors

theorem nodup_indices (pipelines : List (Pipeline F)) :
    ((askedNames (deployedPipelines pipelines)).map Prod.snd).Nodup := by
  have hsub : (deployedPipelines pipelines).map Prod.snd |>.Sublist (pipelines.zipIdx.map Prod.snd) :=
    List.filter_sublist.map _
  rw [askedNames, List.map_map]
  refine hsub.nodup ?_
  rw [List.zipIdx_map_snd]
  exact List.nodup_range'

theorem mem_names_iff_of_prepared {pipelines : List (Pipeline F)} {prepared : PipelineProcessors}
    (h : preparePipelineProcessor E pipelines = .ok prepared) (n : String) :
    (OrderedEntries.get n prepared.processors).isSome ↔ n ∈ prepared.names :=
  ((named_preparePipelineProcessor E h).mem_names_iff n).symm

/-- Where the processors of the pipelines are generated, each pipeline keeps its own if and only if no
name with an index is the name of an earlier pipeline. -/
theorem eachHasProcessor_iff {pipelines : List (Pipeline F)}
    (hgenerated : ∀ p ∈ deployedPipelines pipelines, ∃ processor, pipelineProcessor E p.1 = .ok processor) :
    (∃ prepared, preparePipelineProcessor E pipelines = .ok prepared ∧
      EachHasProcessor E pipelines prepared) ↔
    ¬ Clash withIndex (askedNames (deployedPipelines pipelines)) := by
  obtain ⟨processors, hprocessors⟩ := Fallible.exists_mapM_ok hgenerated
  have hown := Fallible.forall₂_of_mapM hprocessors
  have hprepared := preparePipelineProcessor_eq E pipelines
  rw [hprocessors] at hprepared
  rw [← nodup_newNames_iff (fun _ _ _ _ => withIndex_inj) (nodup_indices pipelines)]
  constructor
  · rintro ⟨prepared, h, heach⟩
    obtain rfl := Except.ok.inj (hprepared.symm.trans h)
    exact heach.distinct
  · intro hnodup
    refine ⟨_, hprepared, hnodup, mem_names_iff_of_prepared E hprepared, processors, hown, ?_⟩
    have hlength : (newNames withIndex [] (askedNames (deployedPipelines pipelines))).length =
        processors.length := by
      rw [length_newNames, askedNames, List.length_map, hown.length_eq]
    refine OrderedEntries.forall₂_get_zip hlength hnodup fun n _ => ?_
    show OrderedEntries.get n (OrderedEntries.insertAll _ []) = _
    rw [OrderedEntries.get_insertAll (by rwa [List.map_fst_zip hlength.le]), OrderedEntries.get_nil,
      Option.or_none]
    rfl

/-! ### Examples -/

/-- Checks that are all written the same. -/
def plainExpressions : Expressions Unit where
  fieldNotNilCheck _ := .ok "true"
  fieldsReferencedInExprNotNilCheck _ := .ok "true"
  regexForStrptimeLayout _ := .ok ""
  parse _ := .ok "true"

def retainPipeline (alias_ : String) : Pipeline Unit :=
  ⟨alias_, true, none, [{ type := "retain", id := "keep", enabled := true }]⟩

theorem generated_retainPipeline {aliases : List String} :
    ∀ p ∈ deployedPipelines (aliases.map retainPipeline),
      ∃ processor, pipelineProcessor plainExpressions p.1 = .ok processor := by
  intro p hp
  obtain ⟨alias_, -, hp⟩ := List.mem_map.mp (List.fst_mem_of_mem_zipIdx (List.mem_of_mem_filter hp))
  rw [← hp]
  exact ⟨_, rfl⟩

/-- The second of two pipelines with one alias gets its index. -/
theorem eachHasProcessor_iff_same_alias :
    ∃ prepared, preparePipelineProcessor plainExpressions (["a", "a"].map retainPipeline) = .ok prepared ∧
      EachHasProcessor plainExpressions (["a", "a"].map retainPipeline) prepared := by
  refine (eachHasProcessor_iff plainExpressions generated_retainPipeline).mpr ?_
  exact (nodup_newNames_iff (fun _ _ _ _ => withIndex_inj) (nodup_indices _)).mp (by decide)

/-- The third pipeline takes the place of the first one. -/
theorem not_eachHasProcessor_index :
    ¬ ∃ prepared, preparePipelineProcessor plainExpressions (["a-2", "a", "a"].map retainPipeline) =
        .ok prepared ∧
      EachHasProcessor plainExpressions (["a-2", "a", "a"].map retainPipeline) prepared := by
  rintro ⟨prepared, h, heach⟩
  obtain ⟨prepared', h', hnames⟩ : ∃ prepared, preparePipelineProcessor plainExpressions
      (["a-2", "a", "a"].map retainPipeline) = .ok prepared ∧ ¬ prepared.names.Nodup :=
    ⟨_, rfl, by decide⟩
  obtain rfl := Except.ok.inj (h.symm.trans h')
  exact hnames heach.distinct

end QueryService.LogParsingPipeline
