import BoringPanel.Lib.Antichain
import BoringPanel.QueryService.PostProcess.Results

/-!
# Formulas

`findUniqueLabelSets`, `joinAndCalculate` and `processResults`. A formula is evaluated for each label set
that is not part of another one, on the first series of each result whose labels are part of it. The
evaluator of expressions is a parameter: a function of the values of the variables (`Expression`).

* `findUniqueLabelSets_keptGreatest`: the label sets are incomparable, and each label set of a query of
  the expression is part of one.
-/

namespace QueryService
namespace PostProcess

variable {F : Type}

/-! ### Label sets -/

/-- `isSubset`: every label of `sub` is one of `super`. -/
def isSubset (super sub : Go.StringMap) : Bool :=
  decide (∀ k ∈ sub.keys, super.lookup k = sub.lookup k)

/-- The label sets of the queries of an expression. -/
def allLabelSets (results : List (Result F)) (queriesInExpression : List String) : List Go.StringMap :=
  (results.filter fun r => r.queryName ∈ queriesInExpression).flatMap fun r =>
    r.series.map Series.labels

/-- `len(labelSet)`, negative: the label sets are sorted by it in descending order. -/
def descendingSize (labelSet : Go.StringMap) : Int := -(labelSet.keys.card : Int)

/-- `findUniqueLabelSets`. -/
def findUniqueLabelSets (sort : SortSlice descendingSize) (results : List (Result F))
    (queriesInExpression : List String) : List Go.StringMap :=
  keepGreatest (fun labelSet unique => isSubset unique labelSet)
    (sort.sort (allLabelSets results queriesInExpression))

theorem isSubset_iff {super sub : Go.StringMap} :
    isSubset super sub = true ↔ ∀ k ∈ sub, super.lookup k = sub.lookup k := by
  rw [isSubset, decide_eq_true_eq]
  exact Iff.rfl

theorem keys_subset_of_isSubset {super sub : Go.StringMap} (h : isSubset super sub = true) :
    sub.keys ⊆ super.keys := by
  intro k hk
  have hlookup := isSubset_iff.mp h k hk
  rw [Finmap.mem_keys, ← Finmap.lookup_isSome, hlookup, Finmap.lookup_isSome]
  exact hk

/-- Label sets are ordered by inclusion, and one that is part of another one of its size is all of it. -/
theorem isSubset_sizedOrder :
    SizedOrder (fun a b : Go.StringMap => isSubset b a) fun a => a.keys.card where
  refl := fun a => isSubset_iff.mpr fun _ _ => rfl
  trans := fun a b c hab hbc => isSubset_iff.mpr fun k hk => by
    have hkb : k ∈ b := keys_subset_of_isSubset hab hk
    exact (isSubset_iff.mp hbc k hkb).trans (isSubset_iff.mp hab k hk)
  size_le := fun a b hab => Finset.card_le_card (keys_subset_of_isSubset hab)
  symm_of_size := fun a b hab hsize => isSubset_iff.mpr fun k hk => by
    have hkeys : a.keys = b.keys := Finset.eq_of_subset_of_card_le (keys_subset_of_isSubset hab) hsize
    have hka : k ∈ a := by
      show k ∈ a.keys
      rw [hkeys]
      exact hk
    exact (isSubset_iff.mp hab k hka).symm

/-- **The label sets of a formula.** -/
theorem findUniqueLabelSets_keptGreatest (sort : SortSlice descendingSize) (results : List (Result F))
    (queriesInExpression : List String) :
    KeptGreatest (fun labelSet unique => isSubset unique labelSet)
      (allLabelSets results queriesInExpression)
      (findUniqueLabelSets sort results queriesInExpression) := by
  have hsorted : (sort.sort (allLabelSets results queriesInExpression)).Pairwise
      fun a b => b.keys.card ≤ a.keys.card := by
    refine (sort.sorted _).imp fun {a b} hab => ?_
    simp only [descendingSize] at hab
    omega
  have h := keptGreatest_keepGreatest isSubset_sizedOrder hsorted
  have hperm := sort.perm (allLabelSets results queriesInExpression)
  exact ⟨fun a ha => hperm.mem_iff.mp (h.subset a ha), h.incomparable,
    fun a ha => h.covers a (hperm.mem_iff.mpr ha)⟩

/-! ### Joining series on their timestamps -/

/-- A parsed expression. It is a function of the values of its variables; an integer among them is one that
stands for a missing value. -/
structure Expression (F : Type) where
  vars : List String
  evaluate : (String → Option (GoValue F)) → Except String (GoValue F)
  congr : ∀ values values', (∀ v ∈ vars, values v = values' v) → evaluate values = evaluate values'

/-- The first series of a result that matches the label set. -/
def matchingSeries (uniqueLabelSet : Go.StringMap) (result : Result F) : Option (Series F) :=
  result.series.find? fun s => isSubset uniqueLabelSet s.labels

/-- `seriesMap`, by query name and timestamp, and the keys of `uniqueTimestamps`. -/
structure Joined (F : Type) where
  seriesMap : String → Int → Option F
  uniqueTimestamps : List Int

def Joined.empty : Joined F := ⟨fun _ _ => none, []⟩

/-- The body of the loop over points. -/
def Joined.add (queryName : String) (joined : Joined F) (p : Point F) : Joined F where
  seriesMap := Function.update joined.seriesMap queryName
    (Function.update (joined.seriesMap queryName) p.timestamp (some p.value))
  uniqueTimestamps :=
    if p.timestamp ∈ joined.uniqueTimestamps then joined.uniqueTimestamps
    else joined.uniqueTimestamps ++ [p.timestamp]

/-- The body of the loop over results. -/
def Joined.addResult (uniqueLabelSet : Go.StringMap) (joined : Joined F) (result : Result F) : Joined F :=
  match matchingSeries uniqueLabelSet result with
  | none => joined
  | some series => series.points.foldl (Joined.add result.queryName) joined

/-- The two maps after the loop over results. -/
def joinResults (results : List (Result F)) (uniqueLabelSet : Go.StringMap) : Joined F :=
  results.foldl (Joined.addResult uniqueLabelSet) Joined.empty

/-- The values at a timestamp; zero for a variable without a value, if it can default to it. -/
def Joined.values (joined : Joined F) (vars : List String) (canDefaultZero : String → Bool)
    (timestamp : Int) (name : String) : Option (GoValue F) :=
  match joined.seriesMap name timestamp with
  | some x => some (.float x)
  | none => if name ∈ vars ∧ canDefaultZero name then some (.int 0) else none

/-- `%T` -/
def typeName : GoValue F → String
  | .nil => "<nil>"
  | .bool _ => "bool"
  | .int _ => "int"
  | .float _ => "float64"
  | .string _ => "string"
  | .array _ => "[]interface \x7b\x7d"
  | .object _ => "map[string]interface \x7b\x7d"

section Calculate

variable [GoFloat F]

/-- The point for a value of the expression, if it is finite. -/
def pointOf (timestamp : Int) : GoValue F → Except String (Option (Point F))
  | .float val =>
    if GoFloat.isNaN val || GoFloat.isInf val then .ok none else .ok (some ⟨timestamp, val⟩)
  | newValue => .error ("expected float64, got " ++ typeName newValue)

/-- The body of the loop over timestamps: the point that is appended, if any. -/
def calculatePoint (expression : Expression F) (canDefaultZero : String → Bool) (joined : Joined F)
    (timestamp : Int) : Except String (Option (Point F)) := do
  let values := joined.values expression.vars canDefaultZero timestamp
  -- not enough values for expression evaluation
  if expression.vars.any fun v => (values v).isNone then return none
  let newValue ← expression.evaluate values
  pointOf timestamp newValue

def calculatePoints (expression : Expression F) (canDefaultZero : String → Bool) (joined : Joined F) :
    List Int → Except String (List (Point F))
  | [] => return []
  | timestamp :: timestamps => do
    let point ← calculatePoint expression canDefaultZero joined timestamp
    let points ← calculatePoints expression canDefaultZero joined timestamps
    return point.toList ++ points

/-- `joinAndCalculate`. -/
def joinAndCalculate (results : List (Result F)) (uniqueLabelSet : Go.StringMap)
    (expression : Expression F) (canDefaultZero : String → Bool) : Except String (Series F) := do
  let joined := joinResults results uniqueLabelSet
  let timestamps := joined.uniqueTimestamps.insertionSort (· ≤ ·)
  return ⟨uniqueLabelSet, [], ← calculatePoints expression canDefaultZero joined timestamps⟩

/-- `processResults`; `visit` gives the labels of a set in the order in which `range` visits them. -/
def processResults (sort : SortSlice descendingSize) (visit : Go.StringMap → List Go.StringMap)
    (results : List (Result F)) (expression : Expression F) (canDefaultZero : String → Bool) :
    Except String (Result F) := do
  let uniqueLabelSets := findUniqueLabelSets sort results expression.vars
  let series ← uniqueLabelSets.mapM fun labelSet =>
    joinAndCalculate results labelSet expression canDefaultZero
  let newSeries := series.filter fun s => s.points.length ≠ 0
  return ⟨"", newSeries.map fun s => { s with labelsArray := visit s.labels }⟩

end Calculate

end PostProcess
end QueryService
