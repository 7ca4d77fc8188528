import BoringPanel.Lib.Fallible
import BoringPanel.QueryService.LogParsingPipeline.PipelineBuilder
import Mathlib.Data.List.ModifyLast

/-!
# The chain of the operators

`getOperators` is a loop over the operators that sets the output of the operator before when it comes to
the next one, and the output of the last one where the list ends in an operator that is disabled. What it
returns is the enabled operators, each with the next one as its output (`getOperators_eq`).
-/

namespace QueryService.LogParsingPipeline

variable {F : Type} (E : Expressions F)

/-! ### The loop -/

/-- Operators where each has the next one as its output. -/
def linkOperators : List PipelineOperator → List PipelineOperator
  | [] => []
  | [o] => [o]
  | o :: o' :: rest => { o with output := o'.id } :: linkOperators (o' :: rest)

/-- The operators of a pipeline that are enabled. -/
def enabledOperators (ops : List PipelineOperator) : List PipelineOperator :=
  ops.filter PipelineOperator.enabled

/-- The list ends in an operator that is disabled. -/
def lastDisabled (ops : List PipelineOperator) : Bool := (ops.getLast?.map (!·.enabled)).getD false

@[simp] theorem setLastOutput_nil (output : String) : setLastOutput [] output = [] := rfl

theorem setLastOutput_concat (l : List PipelineOperator) (o : PipelineOperator) (output : String) :
    setLastOutput (l ++ [o]) output = l ++ [{ o with output := output }] :=
  List.modifyLast_concat _ _ _

theorem length_setLastOutput (l : List PipelineOperator) (output : String) :
    (setLastOutput l output).length = l.length := by
  cases l using List.reverseRecOn with
  | nil => rfl
  | append_singleton l o =>
    rw [setLastOutput_concat, List.length_append, List.length_append, List.length_singleton,
      List.length_singleton]

theorem setLastOutput_cons (o : PipelineOperator) {l : List PipelineOperator} (h : l ≠ [])
    (output : String) : setLastOutput (o :: l) output = o :: setLastOutput l output :=
  List.modifyLast_append_of_right_ne_nil _ [o] l h

theorem linkOperators_ne_nil {l : List PipelineOperator} (h : l ≠ []) : linkOperators l ≠ [] := by
  cases l with
  | nil => exact absurd rfl h
  | cons o rest =>
    cases rest with
    | nil => exact List.cons_ne_nil _ _
    | cons o' rest => exact List.cons_ne_nil _ _

theorem linkOperators_concat (l : List PipelineOperator) (o : PipelineOperator) :
    linkOperators (l ++ [o]) = setLastOutput (linkOperators l) o.id ++ [o] := by
  fun_induction linkOperators l with
  | case1 => rfl
  | case2 o' => rfl
  | case3 o₁ o₂ rest ih =>
    rw [setLastOutput_cons _ (linkOperators_ne_nil (List.cons_ne_nil _ _))]
    exact congrArg (List.cons { o₁ with output := o₂.id }) ih

/-- The operators after the loop: those enabled, and the last of them with no output where the list ends
in an operator that is disabled. -/
def chained (ops prepared : List PipelineOperator) : List PipelineOperator :=
  if lastDisabled ops then setLastOutput (linkOperators prepared) "" else linkOperators prepared

/-- One turn of the loop, where `n` is the number of operators. -/
def addOperator (n : Nat) (filteredOp : List PipelineOperator) (p : PipelineOperator × Nat) :
    Except BuildError (List PipelineOperator) :=
  if p.1.enabled then do
    let operator ← withIf E p.1
    return setLastOutput filteredOp p.1.id ++ [operator]
  else if p.2 = n - 1 ∧ filteredOp ≠ [] then return setLastOutput filteredOp ""
  else return filteredOp

theorem getOperators_fold (ops : List PipelineOperator) :
    getOperators E ops = ops.zipIdx.foldlM (addOperator E ops.length) [] := rfl

/-- A condition changes neither the id nor the output of an operator, nor its type. -/
theorem withIf_ok {o o' : PipelineOperator} (h : withIf E o = .ok o') :
    o'.id = o.id ∧ o'.output = o.output ∧ o'.type = o.type := by
  have hcheck : ∀ {check : Except BuildError String} {f : String → PipelineOperator},
      (do let a ← check; return f a) = Except.ok o' →
        (∀ a, (f a).id = o.id ∧ (f a).output = o.output ∧ (f a).type = o.type) →
        o'.id = o.id ∧ o'.output = o.output ∧ o'.type = o.type := by
    intro check f hx hf
    obtain ⟨a, -, ha⟩ := Fallible.bind_eq_ok hx
    rw [← Except.ok.inj ha]
    exact hf a
  rw [withIf] at h
  by_cases hregex : o.type = "regex_parser"
  · rw [if_pos hregex] at h
    exact hcheck h fun _ => ⟨rfl, rfl, rfl⟩
  rw [if_neg hregex] at h
  by_cases hgrok : o.type = "grok_parser"
  · rw [if_pos hgrok] at h
    exact hcheck h fun _ => ⟨rfl, rfl, rfl⟩
  rw [if_neg hgrok] at h
  by_cases hjson : o.type = "json_parser"
  · rw [if_pos hjson] at h
    exact hcheck h fun _ => ⟨rfl, rfl, rfl⟩
  rw [if_neg hjson] at h
  by_cases hadd : o.type = "add"
  · -- The condition is set for a value that is an expression, if the check is not empty.
    rw [if_pos hadd] at h
    split at h
    · obtain ⟨check, -, h⟩ := Fallible.bind_eq_ok h
      split at h
      · exact Except.ok.inj h ▸ ⟨rfl, rfl, rfl⟩
      · exact Except.ok.inj h ▸ ⟨rfl, rfl, rfl⟩
    · exact Except.ok.inj h ▸ ⟨rfl, rfl, rfl⟩
  rw [if_neg hadd] at h
  by_cases hmove : o.type = "move" ∨ o.type = "copy"
  · rw [if_pos hmove] at h
    exact hcheck h fun _ => ⟨rfl, rfl, rfl⟩
  rw [if_neg hmove] at h
  by_cases hremove : o.type = "remove"
  · rw [if_pos hremove] at h
    exact hcheck h fun _ => ⟨rfl, rfl, rfl⟩
  rw [if_neg hremove] at h
  by_cases htrace : o.type = "trace_parser"
  · rw [if_pos htrace, cleanTraceParser] at h
    split at h
    · cases h
    · exact Except.ok.inj h ▸ ⟨rfl, rfl, rfl⟩
  rw [if_neg htrace] at h
  by_cases htime : o.type = "time_parser"
  · -- The layout adds to the condition.
    rw [if_pos htime] at h
    obtain ⟨check, -, h⟩ := Fallible.bind_eq_ok h
    split at h
    · exact hcheck h fun _ => ⟨rfl, rfl, rfl⟩
    split at h
    · exact Except.ok.inj h ▸ ⟨rfl, rfl, rfl⟩
    · exact Except.ok.inj h ▸ ⟨rfl, rfl, rfl⟩
  rw [if_neg htime] at h
  by_cases hseverity : o.type = "severity_parser"
  · rw [if_pos hseverity] at h
    exact hcheck h fun _ => ⟨rfl, rfl, rfl⟩
  · rw [if_neg hseverity] at h
    exact Except.ok.inj h ▸ ⟨rfl, rfl, rfl⟩

theorem mapM_enabledOperators_append (before : List PipelineOperator) (o : PipelineOperator) :
    (enabledOperators (before ++ [o])).mapM (withIf E) = (do
      let prepared ← (enabledOperators before).mapM (withIf E)
      if o.enabled then return prepared ++ [← withIf E o] else return prepared) := by
  rw [enabledOperators, List.filter_append, List.mapM_append]
  refine congrArg _ (funext fun prepared => ?_)
  split
  · rename_i henabled
    rw [List.filter_singleton, henabled, cond_true, List.mapM_cons]
    simp only [List.mapM_nil, bind_assoc, pure_bind]
  · rename_i hdisabled
    rw [List.filter_singleton, Bool.eq_false_iff.mpr hdisabled, cond_false, List.mapM_nil, pure_bind,
      List.append_nil]

/-- A turn with an operator that is enabled. -/
theorem addOperator_enabled {n i : Nat} {o : PipelineOperator} (h : o.enabled)
    (prepared : List PipelineOperator) : addOperator E n (linkOperators prepared) (o, i) =
      (withIf E o).map fun o' => linkOperators (prepared ++ [o']) := by
  rw [addOperator, if_pos h]
  cases hif : withIf E o with
  | error err => rfl
  | ok o' =>
    show Except.ok _ = Except.ok (linkOperators (prepared ++ [o']))
    rw [linkOperators_concat, (withIf_ok E hif).1]

/-- The turns before the last one link the operators that are enabled. -/
theorem foldlM_addOperator {n : Nat} (before : List PipelineOperator) (hn : before.length < n) :
    before.zipIdx.foldlM (addOperator E n) [] =
      linkOperators <$> (enabledOperators before).mapM (withIf E) := by
  induction before using List.reverseRecOn with
  | nil => rfl
  | append_singleton before o ih =>
    rw [List.length_append, List.length_singleton] at hn
    rw [List.zipIdx_append, List.foldlM_append, ih (by omega), bind_map_left,
      mapM_enabledOperators_append, map_bind]
    refine congrArg _ (funext fun prepared => ?_)
    rw [List.zipIdx_singleton, List.foldlM_cons]
    split
    · rename_i h
      rw [addOperator_enabled E h]
      cases withIf E o with
      | error err => rfl
      | ok o' => rfl
    · rename_i h
      rw [addOperator, if_neg h, if_neg fun hlast => absurd hlast.1 (by simp only; omega)]
      rfl

/-- What the loop returns. -/
theorem getOperators_eq (ops : List PipelineOperator) :
    getOperators E ops = chained ops <$> (enabledOperators ops).mapM (withIf E) := by
  rw [getOperators_fold]
  cases ops using List.reverseRecOn with
  | nil => rfl
  | append_singleton before o =>
    rw [List.length_append, List.length_singleton, List.zipIdx_append, List.foldlM_append,
      foldlM_addOperator E before (Nat.lt_succ_self _), bind_map_left, mapM_enabledOperators_append, map_bind]
    refine congrArg _ (funext fun prepared => ?_)
    rw [List.zipIdx_singleton, List.foldlM_cons]
    by_cases h : o.enabled
    · rw [addOperator_enabled E h, if_pos h]
      have hlast : lastDisabled (before ++ [o]) = false := by simp [lastDisabled, h]
      cases withIf E o with
      | error err => rfl
      | ok o' =>
        show Except.ok _ = Except.ok (chained (before ++ [o]) (prepared ++ [o']))
        rw [chained, hlast, if_neg Bool.false_ne_true]
    · have hlast : lastDisabled (before ++ [o]) = true := by simp [lastDisabled, h]
      rw [addOperator, if_neg h, if_neg h, Nat.zero_add, Nat.add_sub_cancel]
      show _ = Except.ok (chained (before ++ [o]) prepared)
      rw [chained, hlast, if_pos rfl]
      by_cases hnil : linkOperators prepared = []
      · rw [if_neg fun hlast => hlast.2 hnil, hnil]
        rfl
      · rw [if_pos ⟨rfl, hnil⟩]
        rfl

theorem length_linkOperators (l : List PipelineOperator) : (linkOperators l).length = l.length := by
  fun_induction linkOperators l with
  | case1 => rfl
  | case2 => rfl
  | case3 o o' rest ih => exact congrArg Nat.succ ih

theorem length_chained (ops prepared : List PipelineOperator) :
    (chained ops prepared).length = prepared.length := by
  rw [chained]
  split
  · rw [length_setLastOutput, length_linkOperators]
  · rw [length_linkOperators]

/-- There are as many operators as are enabled. -/
theorem length_of_getOperators {ops operators : List PipelineOperator}
    (h : getOperators E ops = .ok operators) : operators.length = (enabledOperators ops).length := by
  rw [getOperators_eq] at h
  obtain ⟨prepared, hprepared, rfl⟩ := Fallible.map_eq_ok h
  rw [length_chained]
  exact (Fallible.forall₂_of_mapM hprepared).length_eq.symm

end QueryService.LogParsingPipeline
