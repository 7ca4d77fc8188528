import BoringPanel.Lib.GoNumber
import BoringPanel.QueryService.Model.Series
import BoringPanel.QueryService.Rules.ApiParams
import BoringPanel.QueryService.Rules.ThresholdRule

/-!
# When a series alerts

`ShouldAlert` of `rules/base_rule.go`, branch by branch, with `removeGroupinSetPoints`. What it is for is
a quantifier over the points (`MatchType.quantified`) of a comparison with the target
(`CompareOp.satisfied`); the branches do so for the pairs that they have (`Pair.covered`), and for the
others they never alert, or always.

The target is the one in the unit of the rule, which `targetVal` converts it to.
-/

namespace QueryService.Rules

open GoMath (lt eq le)

inductive CompareOp where
  | valueIsAbove
  | valueIsBelow
  | valueIsEq
  | valueIsNotEq
  | valueAboveOrEq
  | valueBelowOrEq
  | valueOutsideBounds
deriving DecidableEq, Repr

/-- The constant; no operator has `"0"`. -/
def CompareOp.toString : CompareOp → String
  | .valueIsAbove => "1"
  | .valueIsBelow => "2"
  | .valueIsEq => "3"
  | .valueIsNotEq => "4"
  | .valueAboveOrEq => "5"
  | .valueBelowOrEq => "6"
  | .valueOutsideBounds => "7"

inductive MatchType where
  | atleastOnce
  | allTheTimes
  | onAverage
  | inTotal
  | last
deriving DecidableEq, Repr

def MatchType.toString : MatchType → String
  | .atleastOnce => "1"
  | .allTheTimes => "2"
  | .onAverage => "3"
  | .inTotal => "4"
  | .last => "5"

variable {F : Type}

/-! ### The code -/

section Code

variable [GoLimits F]

def removeGroupinSetPoints (series : Series F) : List (Point F) :=
  series.points.filter fun s =>
    0 ≤ s.timestamp && !GoFloat.isNaN s.value && !GoFloat.isInf s.value

/-- `var alertSmpl Sample`. -/
def Sample.zero : Sample F := ⟨[], GoMath.const 0, false⟩

/-- A loop over the samples that stops at the first one that matches. -/
def firstMatch (lbls : Labels) (points : List (Point F)) (found : F → Bool) : Sample F × Bool :=
  match points.find? fun smpl => found smpl.value with
  | some smpl => (⟨lbls, smpl.value, false⟩, true)
  | none => (.zero, false)

/-- The case `AtleastOnce`. -/
def alertAtleastOnce (compareOp : String) (targetVal : F) (lbls : Labels) (points : List (Point F)) :
    Sample F × Bool :=
  if compareOp = CompareOp.valueIsAbove.toString then firstMatch lbls points fun v => lt targetVal v
  else if compareOp = CompareOp.valueIsBelow.toString then firstMatch lbls points fun v => lt v targetVal
  else if compareOp = CompareOp.valueIsEq.toString then firstMatch lbls points fun v => eq v targetVal
  else if compareOp = CompareOp.valueIsNotEq.toString then firstMatch lbls points fun v => !eq v targetVal
  else if compareOp = CompareOp.valueOutsideBounds.toString then
    firstMatch lbls points fun v => le targetVal (GoMath.abs v)
  else (.zero, false)

/-- A loop over the samples that stops at the first one that does not match. -/
def noneFails (points : List (Point F)) (fails : F → Bool) : Bool :=
  !points.any fun smpl => fails smpl.value

/-- The least value, from infinity on. -/
def minValue (points : List (Point F)) : F :=
  points.foldl (fun m smpl => if lt smpl.value m then smpl.value else m) GoLimits.posInf

def maxValue (points : List (Point F)) : F :=
  points.foldl (fun m smpl => if lt m smpl.value then smpl.value else m) GoLimits.negInf

/-- The first value that is a number and no infinity, or the target. -/
def anyFinite (targetVal : F) (points : List (Point F)) : F :=
  match points.find? fun smpl => !GoFloat.isInf smpl.value && !GoFloat.isNaN smpl.value with
  | some smpl => smpl.value
  | none => targetVal

/-- The loop of `AllTheTimes` for `ValueOutsideBounds`. -/
def staysOutside (targetVal : F) (lbls : Labels) (points : List (Point F)) : Sample F × Bool :=
  match points.find? fun smpl => lt (GoMath.abs smpl.value) targetVal with
  | some smpl => (⟨lbls, smpl.value, false⟩, false)
  | none => (⟨lbls, targetVal, false⟩, true)

/-- The case `AllTheTimes`, which alerts unless a comparison says otherwise. -/
def alertAllTheTimes (compareOp : String) (targetVal : F) (lbls : Labels) (points : List (Point F)) :
    Sample F × Bool :=
  if compareOp = CompareOp.valueIsAbove.toString then
    if noneFails points fun v => le v targetVal then (⟨lbls, minValue points, false⟩, true)
    else (⟨lbls, targetVal, false⟩, false)
  else if compareOp = CompareOp.valueIsBelow.toString then
    if noneFails points fun v => le targetVal v then (⟨lbls, maxValue points, false⟩, true)
    else (⟨lbls, targetVal, false⟩, false)
  else if compareOp = CompareOp.valueIsEq.toString then
    (⟨lbls, targetVal, false⟩, noneFails points fun v => !eq v targetVal)
  else if compareOp = CompareOp.valueIsNotEq.toString then
    if noneFails points fun v => eq v targetVal then (⟨lbls, anyFinite targetVal points, false⟩, true)
    else (⟨lbls, targetVal, false⟩, false)
  else if compareOp = CompareOp.valueOutsideBounds.toString then
    staysOutside targetVal lbls points
  else (⟨lbls, targetVal, false⟩, true)

/-- The chain of comparisons of one value, which `OnAverage` and `InTotal` have. -/
def alertValue (compareOp : String) (targetVal v : F) : Bool :=
  if compareOp = CompareOp.valueIsAbove.toString then lt targetVal v
  else if compareOp = CompareOp.valueIsBelow.toString then lt v targetVal
  else if compareOp = CompareOp.valueIsEq.toString then eq v targetVal
  else if compareOp = CompareOp.valueIsNotEq.toString then !eq v targetVal
  else if compareOp = CompareOp.valueOutsideBounds.toString then le targetVal (GoMath.abs v)
  else false

/-- The sum and the number of the samples that are numbers and no infinities. -/
def sumCount (points : List (Point F)) : F × F :=
  points.foldl (fun acc smpl =>
    if GoFloat.isNaN smpl.value || GoFloat.isInf smpl.value then acc
    else (GoMath.add acc.1 smpl.value, GoMath.add acc.2 (GoMath.const 1))) (GoMath.const 0, GoMath.const 0)

/-- The case `OnAverage`. -/
def alertOnAverage (compareOp : String) (targetVal : F) (lbls : Labels) (points : List (Point F)) :
    Sample F × Bool :=
  let avg := GoMath.div (sumCount points).1 (sumCount points).2
  (⟨lbls, avg, false⟩, alertValue compareOp targetVal avg)

/-- The case `InTotal`. -/
def alertInTotal (compareOp : String) (targetVal : F) (lbls : Labels) (points : List (Point F)) :
    Sample F × Bool :=
  let sum := (sumCount points).1
  (⟨lbls, sum, false⟩, alertValue compareOp targetVal sum)

/-- The case `Last`, which has no comparison with bounds. -/
def alertLast (compareOp : String) (targetVal : F) (lbls : Labels) (v : F) : Sample F × Bool :=
  (⟨lbls, v, false⟩,
    if compareOp = CompareOp.valueIsAbove.toString then lt targetVal v
    else if compareOp = CompareOp.valueIsBelow.toString then lt v targetVal
    else if compareOp = CompareOp.valueIsEq.toString then eq v targetVal
    else if compareOp = CompareOp.valueIsNotEq.toString then !eq v targetVal
    else false)

/-- `ShouldAlert`; `lbls` are the labels of the series, as `range` visits them. -/
def shouldAlert (c : RuleCondition F) (targetVal : F) (lbls : Labels) (series : Series F) : Sample F × Bool :=
  let points := removeGroupinSetPoints series
  match points.getLast? with
  | none => (.zero, false)
  | some last =>
    if c.requireMinPoints ∧ (points.length : Int) < c.requiredNumPoints then (.zero, false)
    else if c.matchType = MatchType.atleastOnce.toString then alertAtleastOnce c.compareOp targetVal lbls points
    else if c.matchType = MatchType.allTheTimes.toString then alertAllTheTimes c.compareOp targetVal lbls points
    else if c.matchType = MatchType.onAverage.toString then alertOnAverage c.compareOp targetVal lbls points
    else if c.matchType = MatchType.inTotal.toString then alertInTotal c.compareOp targetVal lbls points
    else if c.matchType = MatchType.last.toString then alertLast c.compareOp targetVal lbls last.value
    else (.zero, false)

end Code

/-! ### What it is for -/

section Purpose

variable [GoLimits F]

/-- A value compared with the target. -/
def CompareOp.satisfied (op : CompareOp) (targetVal v : F) : Bool :=
  match op with
  | .valueIsAbove => lt targetVal v
  | .valueIsBelow => lt v targetVal
  | .valueIsEq => eq v targetVal
  | .valueIsNotEq => !eq v targetVal
  | .valueAboveOrEq => le targetVal v
  | .valueBelowOrEq => le v targetVal
  | .valueOutsideBounds => le targetVal (GoMath.abs v)

/-- The sum of some values, from the first one on. -/
def total (values : List F) : F := values.foldl GoMath.add (GoMath.const 0)

def mean (values : List F) : F :=
  GoMath.div (total values) (total (values.map fun _ => GoMath.const 1))

/-- What is asked of the values. -/
def MatchType.quantified (m : MatchType) (p : F → Bool) (values : List F) : Bool :=
  match m with
  | .atleastOnce => values.any p
  | .allTheTimes => values.all p
  | .onAverage => p (mean values)
  | .inTotal => p (total values)
  | .last => values.getLast?.any p

/-- The values of the finite points from time zero on. -/
def finiteValues (series : Series F) : List F :=
  (series.points.filter fun p =>
    0 ≤ p.timestamp && !GoFloat.isNaN p.value && !GoFloat.isInf p.value).map Point.value

/-- There are values, and as many as the condition requires. -/
def enough (c : RuleCondition F) (values : List F) : Bool :=
  values ≠ [] ∧ (c.requireMinPoints → c.requiredNumPoints ≤ values.length)

/-- An alert says what the condition asks for, and the value that it shows satisfies the comparison if one
point or each of them is asked for. -/
structure AlertsRight (m : MatchType) (op : CompareOp) (c : RuleCondition F) (targetVal : F)
    (series : Series F) (outcome : Sample F × Bool) : Prop where
  alerts : outcome.2 = (enough c (finiteValues series) &&
    m.quantified (op.satisfied targetVal) (finiteValues series))
  sample : outcome.2 = true → m = .atleastOnce ∨ m = .allTheTimes →
    op.satisfied targetVal outcome.1.v = true

end Purpose

/-- The pairs that the branches compare for. -/
def MatchType.covers (m : MatchType) (op : CompareOp) : Bool :=
  match op with
  | .valueIsAbove | .valueIsBelow | .valueIsEq | .valueIsNotEq => true
  | .valueOutsideBounds => m ≠ .last
  | .valueAboveOrEq | .valueBelowOrEq => false

/-- The comparisons that the loops of `AllTheTimes` turn around. -/
def CompareOp.turnedAround : CompareOp → Bool
  | .valueIsAbove | .valueIsBelow | .valueOutsideBounds => true
  | _ => false

/-! ### The branches -/

section Branches

variable [GoLimits F] {c : RuleCondition F} {m : MatchType} {op : CompareOp} {targetVal : F} {lbls : Labels}
  {series : Series F} {points : List (Point F)} {found : F → Bool}

theorem firstMatch_snd : (firstMatch lbls points found).2 = (points.map Point.value).any found := by
  unfold firstMatch
  rw [List.any_map]
  cases hfind : points.find? fun smpl => found smpl.value with
  | some smpl => exact (List.any_eq_true.mpr ⟨smpl, List.mem_of_find?_eq_some hfind, List.find?_some hfind⟩).symm
  | none =>
    symm
    rw [List.any_eq_false]
    intro smpl hsmpl
    exact List.find?_eq_none.mp hfind smpl hsmpl

theorem firstMatch_fst (h : (firstMatch lbls points found).2 = true) :
    found (firstMatch lbls points found).1.v = true := by
  unfold firstMatch at h ⊢
  cases hfind : points.find? fun smpl => found smpl.value with
  | some smpl =>
    have hfound : found smpl.value = true := List.find?_some (p := fun smpl : Point F => found smpl.value) hfind
    exact hfound
  | none =>
    rw [hfind] at h
    cases h

/-- A covered pair has a loop for its comparison. -/
theorem alertAtleastOnce_eq :
    alertAtleastOnce op.toString targetVal lbls points =
      if MatchType.covers .atleastOnce op then firstMatch lbls points (op.satisfied targetVal)
      else (.zero, false) := by
  cases op <;> rfl

theorem alertValue_eq (v : F) : alertValue op.toString targetVal v =
    (MatchType.covers .inTotal op && op.satisfied targetVal v) := by
  cases op <;> rfl

theorem alertLast_eq (v : F) : (alertLast op.toString targetVal lbls v).2 =
    (MatchType.covers .last op && op.satisfied targetVal v) := by
  cases op <;> rfl

/-- The comparison that ends a loop of `AllTheTimes`. -/
def CompareOp.fails (op : CompareOp) (targetVal v : F) : Bool :=
  match op with
  | .valueIsAbove => le v targetVal
  | .valueIsBelow => le targetVal v
  | .valueIsEq => !eq v targetVal
  | .valueIsNotEq => eq v targetVal
  | .valueOutsideBounds => lt (GoMath.abs v) targetVal
  | .valueAboveOrEq | .valueBelowOrEq => false

theorem staysOutside_snd : (staysOutside targetVal lbls points).2 =
    noneFails points fun v => lt (GoMath.abs v) targetVal := by
  unfold staysOutside noneFails
  cases hfind : points.find? fun smpl => lt (GoMath.abs smpl.value) targetVal with
  | some smpl =>
    have hany : (points.any fun smpl => lt (GoMath.abs smpl.value) targetVal) = true :=
      List.any_eq_true.mpr ⟨smpl, List.mem_of_find?_eq_some hfind,
        List.find?_some (p := fun smpl : Point F => lt (GoMath.abs smpl.value) targetVal) hfind⟩
    rw [hany]
    rfl
  | none =>
    have hany : (points.any fun smpl => lt (GoMath.abs smpl.value) targetVal) = false :=
      List.any_eq_false.mpr fun smpl hsmpl => List.find?_eq_none.mp hfind smpl hsmpl
    rw [hany]
    rfl

theorem alertAllTheTimes_snd :
    (alertAllTheTimes op.toString targetVal lbls points).2 = noneFails points (op.fails targetVal) := by
  have hpair : ∀ (b : Bool) (smpl smpl' : Sample F), (if b then (smpl, true) else (smpl', false)).2 = b := by
    intro b smpl smpl'
    cases b <;> rfl
  cases op with
  | valueIsAbove => exact hpair _ _ _
  | valueIsBelow => exact hpair _ _ _
  | valueIsEq => rfl
  | valueIsNotEq => exact hpair _ _ _
  | valueOutsideBounds => exact staysOutside_snd
  | valueAboveOrEq => exact (congrArg not (List.any_eq_false.mpr fun _ _ => Bool.false_ne_true)).symm
  | valueBelowOrEq => exact (congrArg not (List.any_eq_false.mpr fun _ _ => Bool.false_ne_true)).symm

/-- A comparison that the loop turns around needs a target that is a number. -/
theorem not_fails (hcovers : MatchType.covers .allTheTimes op = true)
    (htarget : op.turnedAround = true → GoFloat.isNaN targetVal = false) {v : F}
    (hv : GoFloat.isNaN v = false) : (!op.fails targetVal v) = op.satisfied targetVal v := by
  cases op with
  | valueIsAbove => exact GoMath.not_le hv (htarget rfl)
  | valueIsBelow => exact GoMath.not_le (htarget rfl) hv
  | valueIsEq => exact Bool.not_not _
  | valueIsNotEq => rfl
  | valueOutsideBounds => exact GoMath.not_lt ((GoLimits.isNaN_abs v).trans hv) (htarget rfl)
  | valueAboveOrEq => cases hcovers
  | valueBelowOrEq => cases hcovers

omit [GoLimits F] in
theorem noneFails_eq_all {p : F → Bool} (h : ∀ smpl ∈ points, (!found smpl.value) = p smpl.value) :
    noneFails points found = (points.map Point.value).all p := by
  induction points with
  | nil => rfl
  | cons smpl points ih =>
    obtain ⟨hsmpl, hpoints⟩ := List.forall_mem_cons.mp h
    rw [List.map_cons, List.all_cons, ← hsmpl, ← ih hpoints, noneFails, noneFails, List.any_cons, Bool.not_or]

/-- Nothing is less than what is no number, and nothing is not. -/
theorem fails_of_isNaN (hturned : op.turnedAround = true) (htarget : GoFloat.isNaN targetVal = true) (v : F) :
    op.fails targetVal v = false ∧ op.satisfied targetVal v = false := by
  have hright : ∀ x : F, (GoFloat.isNaN x || GoFloat.isNaN targetVal) = true := by
    intro x
    rw [htarget, Bool.or_true]
  have hleft : ∀ x : F, (GoFloat.isNaN targetVal || GoFloat.isNaN x) = true := by
    intro x
    rw [htarget, Bool.true_or]
  cases op with
  | valueIsAbove => exact ⟨GoMath.le_of_isNaN (hright v), GoLimits.lt_of_isNaN _ _ (hleft v)⟩
  | valueIsBelow => exact ⟨GoMath.le_of_isNaN (hleft v), GoLimits.lt_of_isNaN _ _ (hright v)⟩
  | valueOutsideBounds => exact ⟨GoLimits.lt_of_isNaN _ _ (hright _), GoMath.le_of_isNaN (hleft _)⟩
  | valueIsEq => cases hturned
  | valueIsNotEq => cases hturned
  | valueAboveOrEq => cases hturned
  | valueBelowOrEq => cases hturned

/-! ### Samples -/

omit [GoLimits F] in
/-- A loop that keeps one of the values keeps the one that it starts from, or one of the samples'. -/
theorem mem_foldl_pick (better : F → F → Bool) (points : List (Point F)) (v : F) :
    points.foldl (fun m smpl => if better smpl.value m then smpl.value else m) v ∈ v :: points.map Point.value := by
  induction points generalizing v with
  | nil => exact List.mem_singleton.mpr rfl
  | cons smpl points ih =>
    rw [List.foldl_cons, List.map_cons]
    split
    · exact List.mem_cons_of_mem v (ih smpl.value)
    · obtain hv | hlater := List.mem_cons.mp (ih v)
      · exact List.mem_cons.mpr (.inl hv)
      · exact List.mem_cons_of_mem v (List.mem_cons_of_mem _ hlater)

omit [GoLimits F] in
theorem mem_foldl_pick_of_head (better : F → F → Bool) {points : List (Point F)} {v : F} (hne : points ≠ [])
    (hv : ∀ smpl ∈ points, better smpl.value v = true) :
    points.foldl (fun m smpl => if better smpl.value m then smpl.value else m) v ∈ points.map Point.value := by
  obtain ⟨smpl, points, rfl⟩ := List.exists_cons_of_ne_nil hne
  rw [List.foldl_cons, if_pos (hv smpl List.mem_cons_self)]
  exact mem_foldl_pick better points smpl.value

/-- The points that `removeGroupinSetPoints` leaves. -/
def AllFinite (points : List (Point F)) : Prop :=
  ∀ smpl ∈ points, GoFloat.isNaN smpl.value = false ∧ GoFloat.isInf smpl.value = false

theorem AllFinite.minValue_mem (h : AllFinite points) (hne : points ≠ []) :
    minValue points ∈ points.map Point.value :=
  mem_foldl_pick_of_head lt hne fun smpl hsmpl => GoLimits.lt_posInf _ (h smpl hsmpl).1 (h smpl hsmpl).2

theorem AllFinite.maxValue_mem (h : AllFinite points) (hne : points ≠ []) :
    maxValue points ∈ points.map Point.value :=
  mem_foldl_pick_of_head (fun v m => lt m v) hne fun smpl hsmpl =>
    GoLimits.negInf_lt _ (h smpl hsmpl).1 (h smpl hsmpl).2

theorem AllFinite.anyFinite_mem (h : AllFinite points) (hne : points ≠ []) :
    anyFinite targetVal points ∈ points.map Point.value := by
  obtain ⟨smpl, points, rfl⟩ := List.exists_cons_of_ne_nil hne
  obtain ⟨hnan, hinf⟩ := h smpl List.mem_cons_self
  have hfind : anyFinite targetVal (smpl :: points) = smpl.value := by
    rw [anyFinite, List.find?_cons_of_pos]
    rw [hnan, hinf]
    rfl
  rw [hfind]
  exact List.mem_cons_self

/-- The target itself is shown where all values are equal to it, or outside of its bounds. -/
theorem satisfied_target {v : F} (hop : op ≠ .valueIsAbove ∧ op ≠ .valueIsBelow ∧ op ≠ .valueIsNotEq)
    (h : op.satisfied targetVal v = true) : op.satisfied targetVal targetVal = true := by
  have hnumber : GoFloat.isNaN targetVal = false := by
    cases hnan : GoFloat.isNaN targetVal with
    | false => rfl
    | true =>
      have hleft : ∀ x, le targetVal x = false := fun x => GoMath.le_of_isNaN (by rw [hnan, Bool.true_or])
      have hright : ∀ x, le x targetVal = false := fun x => GoMath.le_of_isNaN (by rw [hnan, Bool.or_true])
      cases op with
      | valueIsAbove => exact absurd rfl hop.1
      | valueIsBelow => exact absurd rfl hop.2.1
      | valueIsNotEq => exact absurd rfl hop.2.2
      | valueIsEq =>
        have heq : eq v targetVal = true := h
        have hle := hright v
        rw [le, heq, Bool.or_true] at hle
        cases hle
      | valueAboveOrEq => exact absurd h (by rw [CompareOp.satisfied, hleft]; exact Bool.false_ne_true)
      | valueBelowOrEq => exact absurd h (by rw [CompareOp.satisfied, hright]; exact Bool.false_ne_true)
      | valueOutsideBounds => exact absurd h (by rw [CompareOp.satisfied, hleft]; exact Bool.false_ne_true)
  cases op with
  | valueIsAbove => exact absurd rfl hop.1
  | valueIsBelow => exact absurd rfl hop.2.1
  | valueIsNotEq => exact absurd rfl hop.2.2
  | valueIsEq => exact GoMath.eq_self hnumber
  | valueAboveOrEq => exact GoMath.le_self hnumber
  | valueBelowOrEq => exact GoMath.le_self hnumber
  | valueOutsideBounds => exact GoMath.le_abs hnumber

/-- What `AllTheTimes` shows is one of the values, or the target. -/
theorem sample_allTheTimes (hfinite : AllFinite points) (hne : points ≠ [])
    (hall : (points.map Point.value).all (op.satisfied targetVal) = true)
    (halert : (alertAllTheTimes op.toString targetVal lbls points).2 = true) :
    op.satisfied targetVal (alertAllTheTimes op.toString targetVal lbls points).1.v = true := by
  rw [alertAllTheTimes_snd] at halert
  rw [List.all_eq_true] at hall
  obtain ⟨smpl, hsmpl⟩ := List.exists_mem_of_ne_nil points hne
  have hsome := hall smpl.value (List.mem_map_of_mem hsmpl)
  cases op with
  | valueIsAbove =>
    have hshown : alertAllTheTimes CompareOp.valueIsAbove.toString targetVal lbls points =
        (⟨lbls, minValue points, false⟩, true) := if_pos halert
    rw [hshown]
    exact hall _ (hfinite.minValue_mem hne)
  | valueIsBelow =>
    have hshown : alertAllTheTimes CompareOp.valueIsBelow.toString targetVal lbls points =
        (⟨lbls, maxValue points, false⟩, true) := if_pos halert
    rw [hshown]
    exact hall _ (hfinite.maxValue_mem hne)
  | valueIsNotEq =>
    have hshown : alertAllTheTimes CompareOp.valueIsNotEq.toString targetVal lbls points =
        (⟨lbls, anyFinite targetVal points, false⟩, true) := if_pos halert
    rw [hshown]
    exact hall _ (hfinite.anyFinite_mem hne)
  | valueIsEq => exact satisfied_target (by decide) hsome
  | valueAboveOrEq => exact satisfied_target (by decide) hsome
  | valueBelowOrEq => exact satisfied_target (by decide) hsome
  | valueOutsideBounds =>
    -- no sample is within the bounds
    have hnone : points.find? (fun smpl => lt (GoMath.abs smpl.value) targetVal) = none := by
      rw [List.find?_eq_none]
      intro smpl hmem hlt
      have hany : noneFails points (CompareOp.valueOutsideBounds.fails targetVal) = false :=
        congrArg not (List.any_eq_true.mpr ⟨smpl, hmem, hlt⟩)
      rw [hany] at halert
      cases halert
    have hshown : alertAllTheTimes CompareOp.valueOutsideBounds.toString targetVal lbls points =
        (⟨lbls, targetVal, false⟩, true) := by
      show staysOutside targetVal lbls points = _
      rw [staysOutside, hnone]
    rw [hshown]
    exact satisfied_target (by decide) hsome

/-! ### Sums -/

/-- The loop of `OnAverage` skips nothing. -/
theorem AllFinite.foldl_sumCount (h : AllFinite points) (sum count : F) :
    points.foldl (fun acc smpl =>
      if GoFloat.isNaN smpl.value || GoFloat.isInf smpl.value then acc
      else (GoMath.add acc.1 smpl.value, GoMath.add acc.2 (GoMath.const 1))) (sum, count) =
    ((points.map Point.value).foldl GoMath.add sum,
      ((points.map Point.value).map fun _ => GoMath.const 1).foldl GoMath.add count) := by
  induction points generalizing sum count with
  | nil => rfl
  | cons smpl points ih =>
    obtain ⟨⟨hnan, hinf⟩, hpoints⟩ := List.forall_mem_cons.mp h
    have hkept : ¬ (GoFloat.isNaN smpl.value || GoFloat.isInf smpl.value) = true := by
      rw [hnan, hinf]
      decide
    rw [List.foldl_cons, if_neg hkept]
    exact ih hpoints _ _

theorem AllFinite.sumCount_eq (h : AllFinite points) : sumCount points =
    (total (points.map Point.value), total ((points.map Point.value).map fun _ => GoMath.const 1)) :=
  h.foldl_sumCount _ _

/-! ### All pairs -/

/-- A pair that is compared, for a target that is a number where a loop turns the comparison around; or
one that is not, for values of which what is asked for is what the branch says of all: no alert, and an
alert at all times. -/
def MatchType.agrees (m : MatchType) (op : CompareOp) (targetVal : F) (values : List F) : Prop :=
  (m.covers op = true ∧
    (m = .allTheTimes ∧ op.turnedAround = true → GoFloat.isNaN targetVal = false)) ∨
  (m.covers op = false ∧ m.quantified (op.satisfied targetVal) values = decide (m = .allTheTimes))

theorem enough_iff {last : Point F} (h : (removeGroupinSetPoints series).getLast? = some last) :
    enough c (finiteValues series) = true ↔
      ¬ (c.requireMinPoints = true ∧ ((removeGroupinSetPoints series).length : Int) < c.requiredNumPoints) := by
  have hne : finiteValues series ≠ [] := by
    intro hnil
    have hnil : removeGroupinSetPoints series = [] := List.map_eq_nil_iff.mp hnil
    rw [hnil] at h
    cases h
  rw [enough, decide_eq_true_iff, and_iff_right hne, not_and, not_lt, finiteValues, List.length_map]
  rfl

theorem shouldAlert_of_not_enough (h : enough c (finiteValues series) = false) :
    shouldAlert c targetVal lbls series = (.zero, false) := by
  unfold shouldAlert
  cases hlast : (removeGroupinSetPoints series).getLast? with
  | none => simp only [hlast]
  | some last =>
    have hfew := (not_congr (enough_iff hlast)).mp (by rw [h]; decide)
    simp only [hlast]
    exact if_pos (not_not.mp hfew)

theorem shouldAlert_of_enough (targetVal : F) (lbls : Labels) (h : enough c (finiteValues series) = true) :
    ∃ last, (removeGroupinSetPoints series).getLast? = some last ∧
      shouldAlert c targetVal lbls series =
        if c.matchType = MatchType.atleastOnce.toString then
          alertAtleastOnce c.compareOp targetVal lbls (removeGroupinSetPoints series)
        else if c.matchType = MatchType.allTheTimes.toString then
          alertAllTheTimes c.compareOp targetVal lbls (removeGroupinSetPoints series)
        else if c.matchType = MatchType.onAverage.toString then
          alertOnAverage c.compareOp targetVal lbls (removeGroupinSetPoints series)
        else if c.matchType = MatchType.inTotal.toString then
          alertInTotal c.compareOp targetVal lbls (removeGroupinSetPoints series)
        else if c.matchType = MatchType.last.toString then alertLast c.compareOp targetVal lbls last.value
        else (.zero, false) := by
  unfold shouldAlert
  cases hlast : (removeGroupinSetPoints series).getLast? with
  | none =>
    have hnil : finiteValues series = [] := by
      rw [finiteValues, List.map_eq_nil_iff]
      exact List.getLast?_eq_none_iff.mp hlast
    rw [enough, hnil, decide_eq_true_iff] at h
    exact absurd rfl h.1
  | some last =>
    simp only [hlast]
    exact ⟨last, rfl, if_neg ((enough_iff hlast).mp h)⟩

theorem allFinite_removeGroupinSetPoints (series : Series F) : AllFinite (removeGroupinSetPoints series) := by
  intro smpl hsmpl
  have hkept := (List.mem_filter.mp hsmpl).2
  rw [Bool.and_eq_true, Bool.and_eq_true, Bool.not_eq_true', Bool.not_eq_true'] at hkept
  exact ⟨hkept.1.2, hkept.2⟩

/-- A branch that alerts only for the pairs that it compares. -/
theorem alertsRight_iff_of_covers {outcome : Sample F × Bool} {values : List F} (hm : m ≠ .allTheTimes)
    (hvalues : finiteValues series = values) (henough : enough c values = true)
    (halerts : outcome.2 = (m.covers op && m.quantified (op.satisfied targetVal) values))
    (hsample : outcome.2 = true → m = .atleastOnce ∨ m = .allTheTimes →
      op.satisfied targetVal outcome.1.v = true) :
    AlertsRight m op c targetVal series outcome ↔ m.agrees op targetVal values := by
  have hright : AlertsRight m op c targetVal series outcome ↔
      outcome.2 = m.quantified (op.satisfied targetVal) values := by
    constructor
    · intro h
      have halert := h.alerts
      rwa [hvalues, henough, Bool.true_and] at halert
    · intro h
      exact ⟨by rw [hvalues, henough, Bool.true_and]; exact h, hsample⟩
  rw [hright, halerts, MatchType.agrees, decide_eq_false hm]
  cases hcovers : m.covers op with
  | true => simp only [Bool.true_and, hm, false_and, false_implies, and_self, true_or]
  | false =>
    rw [Bool.false_and]
    simp only [Bool.false_eq_true, false_and, true_and, false_or]
    exact eq_comm

/-- The branch that alerts unless a comparison fails. -/
theorem alertsRight_allTheTimes_iff (henough : enough c (finiteValues series) = true) :
    AlertsRight .allTheTimes op c targetVal series
        (alertAllTheTimes op.toString targetVal lbls (removeGroupinSetPoints series)) ↔
      MatchType.agrees .allTheTimes op targetVal (finiteValues series) := by
  have hne : removeGroupinSetPoints series ≠ [] := by
    intro hnil
    rw [enough, finiteValues, decide_eq_true_iff] at henough
    exact henough.1 (List.map_eq_nil_iff.mpr hnil)
  have hfinite := allFinite_removeGroupinSetPoints series
  have hright : AlertsRight .allTheTimes op c targetVal series
      (alertAllTheTimes op.toString targetVal lbls (removeGroupinSetPoints series)) ↔
      noneFails (removeGroupinSetPoints series) (op.fails targetVal) =
        (finiteValues series).all (op.satisfied targetVal) := by
    constructor
    · intro h
      have halert := h.alerts
      rwa [henough, Bool.true_and, alertAllTheTimes_snd] at halert
    · intro h
      refine ⟨by rw [henough, Bool.true_and, alertAllTheTimes_snd]; exact h, fun halert _ => ?_⟩
      rw [alertAllTheTimes_snd, h] at halert
      exact sample_allTheTimes hfinite hne halert (by rw [alertAllTheTimes_snd, h]; exact halert)
  rw [hright, MatchType.agrees]
  cases hcovers : MatchType.covers .allTheTimes op with
  | false =>
    have hfails : ∀ v, op.fails targetVal v = false := by
      intro v
      cases op <;> first | rfl | cases hcovers
    have hnone : noneFails (removeGroupinSetPoints series) (op.fails targetVal) = true :=
      congrArg not (List.any_eq_false.mpr fun smpl _ => by rw [hfails]; decide)
    rw [hnone]
    simp only [Bool.false_eq_true, false_and, true_and, false_or, decide_true]
    exact eq_comm
  | true =>
    simp only [true_and, Bool.true_eq_false, false_and, or_false]
    by_cases hnan : op.turnedAround = true ∧ GoFloat.isNaN targetVal = true
    · -- every sample passes, and none satisfies the comparison
      obtain ⟨hturned, hnan⟩ := hnan
      have hnone : noneFails (removeGroupinSetPoints series) (op.fails targetVal) = true :=
        congrArg not (List.any_eq_false.mpr fun smpl _ => by
          rw [(fails_of_isNaN hturned hnan smpl.value).1]
          decide)
      obtain ⟨smpl, hsmpl⟩ := List.exists_mem_of_ne_nil _ hne
      have hall : (finiteValues series).all (op.satisfied targetVal) = false :=
        List.all_eq_false.mpr ⟨smpl.value, List.mem_map_of_mem hsmpl, by
          rw [(fails_of_isNaN hturned hnan smpl.value).2]
          decide⟩
      rw [hnone, hall]
      refine iff_of_false (by decide) fun h => ?_
      rw [h hturned] at hnan
      cases hnan
    · have htarget : op.turnedAround = true → GoFloat.isNaN targetVal = false := by
        intro hturned
        cases h : GoFloat.isNaN targetVal with
        | false => rfl
        | true => exact absurd ⟨hturned, h⟩ hnan
      refine iff_of_true ?_ htarget
      exact noneFails_eq_all fun smpl hsmpl => not_fails hcovers htarget (hfinite smpl hsmpl).1

/-- A condition with a match type and an operator. -/
def RuleCondition.asking (c : RuleCondition F) (m : MatchType) (op : CompareOp) : RuleCondition F :=
  { c with matchType := m.toString, compareOp := op.toString }

/-- **An alert says what the condition asks for where there are too few points, and where the branch agrees
with the pair.** -/
theorem alertsRight_iff (m : MatchType) (op : CompareOp) (c : RuleCondition F) (targetVal : F)
    (lbls : Labels) (series : Series F) :
    AlertsRight m op (c.asking m op) targetVal series (shouldAlert (c.asking m op) targetVal lbls series) ↔
      enough c (finiteValues series) = false ∨ m.agrees op targetVal (finiteValues series) := by
  cases henough : enough c (finiteValues series) with
  | false =>
    have hfew : enough (c.asking m op) (finiteValues series) = false := henough
    rw [shouldAlert_of_not_enough hfew]
    refine iff_of_true ⟨?_, fun halert => absurd halert Bool.false_ne_true⟩ (.inl rfl)
    rw [hfew]
    rfl
  | true =>
    have hmany : enough (c.asking m op) (finiteValues series) = true := henough
    obtain ⟨last, hlast, hbranch⟩ := shouldAlert_of_enough targetVal lbls hmany
    have hsum := (allFinite_removeGroupinSetPoints series).sumCount_eq
    rw [hbranch, or_iff_right (by decide)]
    cases m with
    | atleastOnce =>
      show AlertsRight _ op _ targetVal series
        (alertAtleastOnce op.toString targetVal lbls (removeGroupinSetPoints series)) ↔ _
      rw [alertAtleastOnce_eq]
      refine alertsRight_iff_of_covers (by decide) rfl hmany ?_ ?_
      · split
        · rw [firstMatch_snd, ‹MatchType.covers .atleastOnce op = true›]
          rfl
        · rw [Bool.eq_false_iff.mpr ‹¬ MatchType.covers .atleastOnce op = true›]
          rfl
      · split
        · exact fun halert _ => firstMatch_fst halert
        · exact fun halert => absurd halert Bool.false_ne_true
    | allTheTimes => exact alertsRight_allTheTimes_iff hmany
    | onAverage =>
      refine alertsRight_iff_of_covers (by decide) rfl hmany ?_ fun _ h => by simp at h
      show alertValue op.toString targetVal _ = _
      rw [alertValue_eq, hsum]
      rfl
    | inTotal =>
      refine alertsRight_iff_of_covers (by decide) rfl hmany ?_ fun _ h => by simp at h
      show alertValue op.toString targetVal _ = _
      rw [alertValue_eq, hsum]
      rfl
    | last =>
      refine alertsRight_iff_of_covers (by decide) rfl hmany ?_ fun _ h => by simp at h
      have hvalue : (finiteValues series).getLast? = some last.value := by
        rw [finiteValues, List.getLast?_map]
        exact congrArg (Option.map Point.value) hlast
      show (alertLast op.toString targetVal lbls last.value).2 = _
      rw [alertLast_eq, MatchType.quantified, hvalue]
      rfl

/-- At least once at or above the target: no point ever is. -/
theorem silent_at_target : ¬ ∀ (m : MatchType) (op : CompareOp) (c : RuleCondition GoNumber)
    (targetVal : GoNumber) (lbls : Labels) (series : Series GoNumber),
    AlertsRight m op (c.asking m op) targetVal series
      (shouldAlert (c.asking m op) targetVal lbls series) := by
  intro h
  have halerts := (h .atleastOnce .valueAboveOrEq .zero (.finite 5) [] ⟨∅, [], [⟨0, .finite 5⟩]⟩).alerts
  exact absurd halerts (by decide)

end Branches

end QueryService.Rules
