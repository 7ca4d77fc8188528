import BoringPanel.QueryService.LogParsingPipeline.ProcessorsList
import BoringPanel.QueryService.Utils.Cast

/-!
# The managed processors of a pipeline

`buildPipeline` of `app/opamp/pipeline_builder.go` merges the processors that the server manages, which
are enabled or disabled, into the processors of the collector's pipeline for traces or metrics. It finds the
positions of the managed ones in the list as it was, and goes over the spec with a list that it changes:
a disabled one is cut out, an enabled one that is missing is put in behind the last one found.

Both go wrong. The cut takes the processor in front along, unless there is none, and the positions after it
are not moved; and what is put in behind the first managed processor takes its place or comes before it.
`buildPipeline_iff` says when the list is the one wanted.
-/

namespace QueryService.OpAMP

open LogParsingPipeline (existingPositions checkDuplicateString)

/-- `Signal`, of which `buildPipeline` knows two. -/
inductive Signal where
  | metrics
  | traces
  | logs
deriving DecidableEq, Repr

structure PipelineStatus where
  name : String
  enabled : Bool
deriving DecidableEq, Repr

/-- The names of a spec. -/
def names (spec : List PipelineStatus) : List String := spec.map PipelineStatus.name

def tracesPipelineSpec : List PipelineStatus := [⟨"signoz_tail_sampling", false⟩, ⟨"batch", true⟩]

def metricsPipelineSpec : List PipelineStatus := [⟨"filter", false⟩, ⟨"batch", true⟩]

/-- The two variables of the package. Only the flags change. -/
structure PipelineSpecs where
  traces : List PipelineStatus
  metrics : List PipelineStatus
  names_traces : names traces = ["signoz_tail_sampling", "batch"]
  names_metrics : names metrics = ["filter", "batch"]

/-- What they are at first. -/
def PipelineSpecs.initial : PipelineSpecs := ⟨tracesPipelineSpec, metricsPipelineSpec, rfl, rfl⟩

def setEnabled (name : String) (enabled : Bool) (spec : List PipelineStatus) : List PipelineStatus :=
  spec.map fun p => if p.name = name then { p with enabled := enabled } else p

theorem names_setEnabled (name : String) (enabled : Bool) (spec : List PipelineStatus) :
    names (setEnabled name enabled spec) = names spec := by
  rw [names, setEnabled, List.map_map]
  refine List.map_congr_left fun p _ => ?_
  rw [Function.comp_apply]
  split <;> rfl

def updatePipelineSpec (specs : PipelineSpecs) (signal : Signal) (name : String) (enabled : Bool) :
    PipelineSpecs :=
  match signal with
  | .metrics => { specs with
      metrics := setEnabled name enabled specs.metrics
      names_metrics := (names_setEnabled name enabled specs.metrics).trans specs.names_metrics }
  | .traces => { specs with
      traces := setEnabled name enabled specs.traces
      names_traces := (names_setEnabled name enabled specs.traces).trans specs.names_traces }
  | .logs => specs

def PipelineSpecs.spec (specs : PipelineSpecs) : Signal → List PipelineStatus
  | .metrics => specs.metrics
  | .traces => specs.traces
  | .logs => []

/-- `l[i:]`, which panics behind the end. -/
def sliceFrom {α : Type} (l : List α) (i : Nat) : Option (List α) :=
  if i ≤ l.length then some (l.drop i) else none

/-- The variables of the loop over the spec. -/
structure Merge where
  pipeline : List String
  lastMatched : Int := -1
  inserts : Nat := 0

/-- One turn of the loop, for the processor at a position of the spec; `none` where it panics. -/
def mergeNext (existing : String → Option Nat) (s : Merge) (m : PipelineStatus) : Option Merge :=
  match existing m.name with
  | some loc =>
    let currentPos := loc + s.inserts
    if m.enabled then some { s with lastMatched := currentPos }
    else
      -- the processor before the position goes as well
      let kept := if currentPos ≤ 1 then [] else s.pipeline.take (currentPos - 1)
      (sliceFrom s.pipeline (currentPos + 1)).map fun rest =>
        { s with pipeline := kept ++ rest, lastMatched := currentPos }
  | none =>
    if ¬ m.enabled then some s
    else if s.lastMatched ≤ 0 then
      (sliceFrom s.pipeline (s.lastMatched + 1).toNat).map fun rest =>
        { s with pipeline := m.name :: rest, inserts := s.inserts + 1 }
    else
      let prior := s.pipeline.take s.lastMatched.toNat
      (sliceFrom s.pipeline s.lastMatched.toNat).map fun next =>
        { s with pipeline := prior ++ m.name :: next, inserts := s.inserts + 1 }

/-- `buildPipeline` for a spec: the list and the text of an error; `none` where it panics. -/
def mergeSpec (spec : List PipelineStatus) (current : List String) :
    Option (List String × Option String) :=
  (spec.foldlM (mergeNext (existingPositions current)) { pipeline := current }).map fun s =>
    if checkDuplicateString s.pipeline then
      (s.pipeline, some ("the effective config has an unexpected processor sequence: [" ++
        Go.join " " s.pipeline ++ "]"))
    else (s.pipeline, none)

def buildPipeline (specs : PipelineSpecs) (signal : Signal) (current : List String) :
    Option (List String × Option String) :=
  match signal with
  | .metrics => mergeSpec specs.metrics current
  | .traces => mergeSpec specs.traces current
  | .logs => some ([], some "invalid signal")

/-! ### One turn -/

section Turns

variable {existing : String → Option Nat} {s : Merge} {m : PipelineStatus}

theorem sliceFrom_append (a b : List String) : sliceFrom (a ++ b) a.length = some b := by
  rw [sliceFrom, if_pos (by simp), List.drop_left]

theorem mergeNext_keep {loc : Nat} (hloc : existing m.name = some loc) (h : m.enabled) :
    mergeNext existing s m = some { s with lastMatched := (loc + s.inserts : Nat) } := by
  rw [mergeNext, hloc]
  exact if_pos h

/-- A disabled one at the beginning is cut out alone. -/
theorem mergeNext_cut_first {y : String} {rest : List String} (hloc : existing m.name = some 0)
    (h : ¬ m.enabled) (hinserts : s.inserts = 0) (hs : s.pipeline = y :: rest) :
    mergeNext existing s m = some { s with pipeline := rest, lastMatched := 0 } := by
  simp [mergeNext, hloc, h, hinserts, hs, sliceFrom]

/-- Elsewhere the processor before it is cut out as well. -/
theorem mergeNext_cut {before rest : List String} {x y : String} {loc : Nat}
    (hloc : existing m.name = some loc) (h : ¬ m.enabled)
    (hpos : loc + s.inserts = before.length + 1) (hs : s.pipeline = before ++ x :: y :: rest) :
    mergeNext existing s m = some { s with
      pipeline := before ++ rest, lastMatched := (before.length + 1 : Nat) } := by
  have hrest : sliceFrom s.pipeline (before.length + 1 + 1) = some rest := by
    have hsplit : s.pipeline = (before ++ [x, y]) ++ rest := by rw [hs, List.append_assoc]; rfl
    have hlength : before.length + 1 + 1 = (before ++ [x, y]).length := by
      rw [List.length_append, List.length_cons, List.length_singleton]
    rw [hsplit, hlength, sliceFrom_append]
  have hkept : (if before.length + 1 ≤ 1 then [] else s.pipeline.take (before.length + 1 - 1)) = before := by
    split
    · rw [List.eq_nil_of_length_eq_zero (l := before) (by omega)]
    · rw [hs, Nat.add_sub_cancel, List.take_left]
  rw [mergeNext, hloc]
  simp only [h, hpos, hrest, hkept, Option.map_some]
  rfl

/-- Where it is cut out, there is something at its position, which is cut out after what is before it. -/
theorem mergeNext_cut_ok {s' : Merge} {before tail : List String} {x : String} {loc : Nat}
    (hloc : existing m.name = some loc) (h : ¬ m.enabled) (hpos : loc + s.inserts = before.length + 1)
    (hs : s.pipeline = before ++ x :: tail) (hnext : mergeNext existing s m = some s') :
    ∃ y rest, tail = y :: rest ∧ s'.pipeline = before ++ rest := by
  cases tail with
  | nil =>
    have hrest : sliceFrom s.pipeline (before.length + 1 + 1) = none := by
      rw [sliceFrom, hs, if_neg (by simp)]
    rw [mergeNext, hloc] at hnext
    simp [h, hpos, hrest] at hnext
  | cons y rest =>
    rw [mergeNext_cut hloc h hpos hs] at hnext
    exact ⟨y, rest, rfl, (congrArg Merge.pipeline (Option.some.inj hnext)).symm⟩

theorem mergeNext_skip (hloc : existing m.name = none) (h : ¬ m.enabled) :
    mergeNext existing s m = some s := by
  rw [mergeNext, hloc]
  exact if_pos h

/-- Before any is found, what is missing is put in front. -/
theorem mergeNext_put_front (hloc : existing m.name = none) (h : m.enabled) (hlast : s.lastMatched = -1) :
    mergeNext existing s m =
      some { s with pipeline := m.name :: s.pipeline, inserts := s.inserts + 1 } := by
  simp [mergeNext, hloc, h, hlast, sliceFrom]

/-- Behind one at the beginning, it takes the place of what is there. -/
theorem mergeNext_put_over {y : String} {rest : List String} (hloc : existing m.name = none)
    (h : m.enabled) (hlast : s.lastMatched = 0) (hs : s.pipeline = y :: rest) :
    mergeNext existing s m = some { s with pipeline := m.name :: rest, inserts := s.inserts + 1 } := by
  simp [mergeNext, hloc, h, hlast, hs, sliceFrom]

theorem mergeNext_put_over_ok {s' : Merge} (hloc : existing m.name = none) (h : m.enabled)
    (hlast : s.lastMatched = 0) (hnext : mergeNext existing s m = some s') :
    ∃ y rest, s.pipeline = y :: rest ∧ s'.pipeline = m.name :: rest := by
  cases hs : s.pipeline with
  | nil => simp [mergeNext, hloc, h, hlast, hs, sliceFrom] at hnext
  | cons y rest =>
    rw [mergeNext_put_over hloc h hlast hs] at hnext
    exact ⟨y, rest, rfl, (congrArg Merge.pipeline (Option.some.inj hnext)).symm⟩

/-- Otherwise it comes before the one found. -/
theorem mergeNext_put_before {before after : List String} (hloc : existing m.name = none)
    (h : m.enabled) (hlast : s.lastMatched = before.length) (hne : before ≠ [])
    (hs : s.pipeline = before ++ after) :
    mergeNext existing s m =
      some { s with pipeline := before ++ m.name :: after, inserts := s.inserts + 1 } := by
  have hpos : ¬ s.lastMatched ≤ 0 := by
    rw [hlast]
    have := List.length_pos_iff.mpr hne
    omega
  rw [mergeNext, hloc]
  simp only [h, not_true_eq_false, if_false, hpos]
  rw [hlast, Int.toNat_natCast, hs, sliceFrom_append, List.take_left]
  rfl

theorem mem_of_sliceFrom {l rest : List String} {i : Nat} (h : sliceFrom l i = some rest) {n : String}
    (hn : n ∈ rest) : n ∈ l := by
  rw [sliceFrom] at h
  split at h
  · rw [← Option.some.inj h] at hn
    exact List.mem_of_mem_drop hn
  · cases h

/-- A turn adds nothing but its own processor. -/
theorem mem_of_mergeNext {s' : Merge} (hnext : mergeNext existing s m = some s') {n : String}
    (hn : n ∈ s'.pipeline) : n ∈ s.pipeline ∨ n = m.name := by
  rw [mergeNext] at hnext
  split at hnext
  · split at hnext
    · rw [← Option.some.inj hnext] at hn
      exact Or.inl hn
    · obtain ⟨rest, hrest, rfl⟩ := Option.map_eq_some_iff.mp hnext
      rcases List.mem_append.mp hn with hn | hn
      · split at hn
        · cases hn
        · exact Or.inl (List.mem_of_mem_take hn)
      · exact Or.inl (mem_of_sliceFrom hrest hn)
  · split at hnext
    · rw [← Option.some.inj hnext] at hn
      exact Or.inl hn
    split at hnext
    · obtain ⟨rest, hrest, rfl⟩ := Option.map_eq_some_iff.mp hnext
      rcases List.mem_cons.mp hn with hn | hn
      · exact Or.inr hn
      · exact Or.inl (mem_of_sliceFrom hrest hn)
    · obtain ⟨rest, hrest, rfl⟩ := Option.map_eq_some_iff.mp hnext
      rcases List.mem_append.mp hn with hn | hn
      · exact Or.inl (List.mem_of_mem_take hn)
      · rcases List.mem_cons.mp hn with hn | hn
        · exact Or.inr hn
        · exact Or.inl (mem_of_sliceFrom hrest hn)

end Turns

/-! ### The list that is wanted -/

/-- **The list that is wanted**: the other processors of the list as they were, and of the managed ones
those that are enabled, in the order of the spec. -/
structure Merged (spec : List PipelineStatus) (current pipeline : List String) : Prop where
  nodup : pipeline.Nodup
  unmanaged : pipeline.filter (· ∉ names spec) = current.filter (· ∉ names spec)
  managed : pipeline.filter (· ∈ names spec) = names (spec.filter PipelineStatus.enabled)

theorem Merged.not_lost {spec : List PipelineStatus} {current pipeline : List String}
    (h : Merged spec current pipeline) {n : String} (hn : n ∈ current) (hspec : n ∉ names spec) :
    n ∈ pipeline := by
  have hmem : n ∈ current.filter (· ∉ names spec) := List.mem_filter.mpr ⟨hn, by simpa using hspec⟩
  rw [← h.unmanaged] at hmem
  exact List.mem_of_mem_filter hmem

theorem Merged.mem_of_enabled {spec : List PipelineStatus} {current pipeline : List String}
    (h : Merged spec current pipeline) {m : PipelineStatus} (hm : m ∈ spec) (henabled : m.enabled) :
    m.name ∈ pipeline := by
  have hmem : m.name ∈ names (spec.filter PipelineStatus.enabled) :=
    List.mem_map_of_mem (List.mem_filter.mpr ⟨hm, henabled⟩)
  rw [← h.managed] at hmem
  exact List.mem_of_mem_filter hmem

/-- A processor that is to be put in. -/
def PipelineStatus.missing (m : PipelineStatus) (current : List String) : Prop :=
  m.enabled ∧ m.name ∉ current

/-- A processor that is to be cut out. -/
def PipelineStatus.stale (m : PipelineStatus) (current : List String) : Prop :=
  ¬ m.enabled ∧ m.name ∈ current

/-- Nothing is cut out, and what is put in has before it in the spec only processors that are disabled and
not in the list; or nothing is put in, and only the first processor of the list is cut out. -/
def Mergeable (spec : List PipelineStatus) (current : List String) : Prop :=
  ((∀ m ∈ spec, ¬ m.stale current) ∧
    spec.Pairwise fun m m' => m'.missing current → ¬ m.enabled ∧ m.name ∉ current) ∨
  ((∀ m ∈ spec, ¬ m.missing current) ∧
    ∃ m ∈ spec, m.stale current ∧ current.head? = some m.name ∧
      ∀ m' ∈ spec, m'.stale current → m' = m)

/-! ### Two managed processors -/

section Pair

variable {a b : PipelineStatus} {current : List String}

theorem existing_append (hnodup : current.Nodup) {u v : List String} {n : String}
    (hcurrent : current = u ++ n :: v) : existingPositions current n = some u.length := by
  rw [LogParsingPipeline.existingPositions_eq_some_iff hnodup, hcurrent]
  rw [List.getElem?_append_right (Nat.le_refl _), Nat.sub_self]
  rfl

theorem existing_of_not_mem {n : String} (h : n ∉ current) : existingPositions current n = none := by
  cases hloc : existingPositions current n with
  | none => rfl
  | some loc => exact absurd (List.mem_of_getElem? (LogParsingPipeline.getElem?_of_existingPositions hloc)) h

/-- The merge of a spec with two processors comes to an end with a list. -/
def Results (a b : PipelineStatus) (current pipeline : List String) : Prop :=
  ∃ s, (mergeNext (existingPositions current) { pipeline := current } a).bind
    (mergeNext (existingPositions current) · b) = some s ∧ s.pipeline = pipeline

theorem mergeable_pair_iff (hab : a ≠ b) : Mergeable [a, b] current ↔
    (¬ a.stale current ∧ ¬ b.stale current ∧ (b.missing current → ¬ a.enabled ∧ a.name ∉ current)) ∨
    (¬ a.missing current ∧ ¬ b.missing current ∧
      ((a.stale current ∧ current.head? = some a.name ∧ ¬ b.stale current) ∨
        (b.stale current ∧ current.head? = some b.name ∧ ¬ a.stale current))) := by
  simp [Mergeable, hab, hab.symm, and_assoc]

/-- The processors are not among the two. -/
def Others (a b : PipelineStatus) (l : List String) : Prop := ∀ n ∈ l, n ∉ names [a, b]

theorem Others.filter_mem {l : List String} (h : Others a b l) : l.filter (· ∈ names [a, b]) = [] :=
  List.filter_eq_nil_iff.mpr fun n hn => by simpa using h n hn

theorem first_mem (a b : PipelineStatus) : a.name ∈ names [a, b] := List.mem_cons_self

theorem second_mem (a b : PipelineStatus) : b.name ∈ names [a, b] :=
  List.mem_cons_of_mem _ List.mem_cons_self

/-- Neither is in the list. -/
theorem results_neither (hab : a.name ≠ b.name) (hnodup : current.Nodup) (h : Others a b current) :
    (∃ pipeline, Results a b current pipeline ∧ Merged [a, b] current pipeline) ↔
      Mergeable [a, b] current := by
  have ha : a.name ∉ current := fun hn => h _ hn (first_mem a b)
  have hb : b.name ∉ current := fun hn => h _ hn (second_mem a b)
  have hnewa := existing_of_not_mem ha
  have hnewb := existing_of_not_mem hb
  rw [mergeable_pair_iff (fun heq => hab (congrArg PipelineStatus.name heq))]
  simp only [PipelineStatus.stale, PipelineStatus.missing, ha, hb, not_false_eq_true, and_true,
    and_false, false_and, or_false, true_and, Bool.not_eq_true]
  cases hea : a.enabled <;> cases heb : b.enabled
  case false.false =>
    refine iff_of_true ⟨current, ⟨{ pipeline := current }, ?_, rfl⟩,
      hnodup, rfl, ?_⟩ (by simp)
    · rw [mergeNext_skip hnewa (by simp [hea])]
      exact mergeNext_skip hnewb (by simp [heb])
    · rw [h.filter_mem]
      simp [hea, heb, names]
  case false.true =>
    refine iff_of_true ⟨b.name :: current, ⟨{ pipeline := b.name :: current, inserts := 1 }, ?_, rfl⟩,
      ?_, ?_, ?_⟩ (by simp)
    · rw [mergeNext_skip hnewa (by simp [hea])]
      exact mergeNext_put_front hnewb heb rfl
    · exact List.nodup_cons.mpr ⟨hb, hnodup⟩
    · rw [List.filter_cons_of_neg (by simp [second_mem])]
    · rw [List.filter_cons_of_pos (by simp [second_mem]), h.filter_mem]
      simp [hea, heb, names]
  case true.false =>
    refine iff_of_true ⟨a.name :: current, ⟨{ pipeline := a.name :: current, inserts := 1 }, ?_, rfl⟩,
      ?_, ?_, ?_⟩ (by simp)
    · rw [mergeNext_put_front hnewa hea rfl]
      exact mergeNext_skip hnewb (by simp [heb])
    · exact List.nodup_cons.mpr ⟨ha, hnodup⟩
    · rw [List.filter_cons_of_neg (by simp [first_mem])]
    · rw [List.filter_cons_of_pos (by simp [first_mem]), h.filter_mem]
      simp [hea, heb, names]
  case true.true =>
    -- The second one comes before the first one.
    refine iff_of_false ?_ (by simp)
    rintro ⟨pipeline, ⟨s, hs, rfl⟩, hmerged⟩
    rw [mergeNext_put_front hnewa hea rfl] at hs
    have hlast := (mergeNext_put_front hnewb heb rfl).symm.trans hs
    have hmanaged := hmerged.managed
    rw [← Option.some.inj hlast, List.filter_cons_of_pos (by simp [second_mem]),
      List.filter_cons_of_pos (by simp [first_mem]), h.filter_mem] at hmanaged
    simp [hea, heb, names, hab.symm] at hmanaged

/-- The processor before the one that is cut out is lost. -/
theorem lost_by_cut {s s' : Merge} {m : PipelineStatus} (before : List String) {v : List String} {x : String}
    {loc : Nat} (hloc : existingPositions current m.name = some loc) (h : ¬ m.enabled)
    (hpos : loc + s.inserts = before.length + 1) (hs : s.pipeline = before ++ x :: m.name :: v)
    (hnodup : s.pipeline.Nodup) (hnext : mergeNext (existingPositions current) s m = some s') :
    x ∉ s'.pipeline := by
  rw [mergeNext_cut hloc h hpos hs] at hnext
  rw [hs, List.nodup_append] at hnodup
  rw [← Option.some.inj hnext]
  intro hmem
  rcases List.mem_append.mp hmem with hmem | hmem
  · exact hnodup.2.2 x hmem x List.mem_cons_self rfl
  · exact (List.nodup_cons.mp hnodup.2.1).1 (List.mem_cons_of_mem _ hmem)

theorem head?_ne (hnodup : current.Nodup) {u v : List String} {x n : String}
    (hcurrent : current = u ++ x :: n :: v) : current.head? ≠ some n := by
  rw [hcurrent] at hnodup ⊢
  cases u with
  | nil =>
    intro h
    exact (List.nodup_cons.mp hnodup).1 (Option.some.inj h ▸ List.mem_cons_self)
  | cons y u =>
    intro h
    refine (List.nodup_cons.mp hnodup).1 ?_
    rw [show y = n from Option.some.inj h]
    simp

/-- Where the first one is cut out from behind another processor, that one is lost. -/
theorem not_merged_of_cut_first (hnodup : current.Nodup) {u v : List String} {x : String}
    (hcurrent : current = u ++ x :: a.name :: v) (hx : x ∉ names [a, b]) (ha : ¬ a.enabled) :
    ¬ ∃ pipeline, Results a b current pipeline ∧ Merged [a, b] current pipeline := by
  rintro ⟨pipeline, ⟨s, hs, rfl⟩, hmerged⟩
  have hloc : existingPositions current a.name = some (u ++ [x]).length :=
    existing_append hnodup (by rw [hcurrent, List.append_assoc]; rfl)
  obtain ⟨s₁, hs₁, hs⟩ := Option.bind_eq_some_iff.mp hs
  have hlost := lost_by_cut _ hloc ha (by simp) hcurrent hnodup hs₁
  rcases mem_of_mergeNext hs (hmerged.not_lost (by simp [hcurrent]) hx) with hmem | rfl
  · exact hlost hmem
  · exact hx (second_mem a b)

/-- Only the first one is in the list. -/
theorem results_first (hab : a.name ≠ b.name) (hnodup : current.Nodup) {u v : List String}
    (hcurrent : current = u ++ a.name :: v) (hu : Others a b u) (hv : Others a b v) :
    (∃ pipeline, Results a b current pipeline ∧ Merged [a, b] current pipeline) ↔
      Mergeable [a, b] current := by
  have ha : a.name ∈ current := by simp [hcurrent]
  have hb : b.name ∉ current := by
    rw [hcurrent, List.mem_append, List.mem_cons, not_or, not_or]
    exact ⟨fun hn => hu _ hn (second_mem a b), hab.symm, fun hn => hv _ hn (second_mem a b)⟩
  have hloc := existing_append hnodup hcurrent
  have hnewb := existing_of_not_mem hb
  rw [mergeable_pair_iff (fun heq => hab (congrArg PipelineStatus.name heq))]
  simp only [PipelineStatus.stale, PipelineStatus.missing, ha, hb, not_false_eq_true, not_true_eq_false,
    and_true, and_false, false_and, or_false, true_and, Bool.not_eq_true]
  cases hea : a.enabled <;> cases heb : b.enabled
  case false.false =>
    rcases List.eq_nil_or_concat' u with rfl | ⟨u, x, rfl⟩
    · refine iff_of_true ⟨v, ⟨{ pipeline := v, lastMatched := 0 }, ?_, rfl⟩,
      ?_, ?_, ?_⟩ (by simp [hcurrent])
      · rw [mergeNext_cut_first hloc (by simp [hea]) rfl hcurrent]
        exact mergeNext_skip hnewb (by simp [heb])
      · rw [hcurrent] at hnodup
        exact (List.nodup_cons.mp hnodup).2
      · rw [hcurrent, List.nil_append, List.filter_cons_of_neg (by simp [first_mem])]
      · rw [hv.filter_mem]
        simp [hea, heb, names]
    · rw [List.append_assoc] at hcurrent
      have hx : x ∉ names [a, b] := hu x (by simp)
      refine iff_of_false (not_merged_of_cut_first hnodup hcurrent hx (by simp [hea])) ?_
      have hhead := head?_ne hnodup hcurrent
      simp [hhead]
  case false.true =>
    refine iff_of_false ?_ (by simp)
    rcases List.eq_nil_or_concat' u with rfl | ⟨u, x, rfl⟩
    · -- The second one takes the place of the processor behind the first one.
      rintro ⟨pipeline, ⟨s, hs, rfl⟩, hmerged⟩
      rw [mergeNext_cut_first hloc (by simp [hea]) rfl hcurrent] at hs
      obtain ⟨y, rest, rfl, hpipeline⟩ := mergeNext_put_over_ok hnewb heb rfl hs
      have hy := hmerged.not_lost (n := y) (by simp [hcurrent]) (hv y List.mem_cons_self)
      rw [hcurrent] at hnodup
      rw [hpipeline] at hy
      rcases List.mem_cons.mp hy with rfl | hy
      · exact hv _ List.mem_cons_self (second_mem a b)
      · exact (List.nodup_cons.mp (List.nodup_cons.mp hnodup).2).1 hy
    · rw [List.append_assoc] at hcurrent
      exact not_merged_of_cut_first hnodup hcurrent (hu x (by simp)) (by simp [hea])
  case true.false =>
    refine iff_of_true ⟨current, ⟨{ pipeline := current, lastMatched := u.length }, ?_, rfl⟩,
      hnodup, rfl, ?_⟩ (by simp)
    · rw [mergeNext_keep hloc hea]
      exact mergeNext_skip hnewb (by simp [heb])
    · rw [hcurrent, List.filter_append, hu.filter_mem, List.filter_cons_of_pos (by simp [first_mem]),
        hv.filter_mem]
      simp [hea, heb, names]
  case true.true =>
    refine iff_of_false ?_ (by simp)
    rintro ⟨pipeline, ⟨s, hs, rfl⟩, hmerged⟩
    rw [mergeNext_keep hloc hea] at hs
    rcases List.eq_nil_or_concat' u with rfl | ⟨u', x, rfl⟩
    · -- The second one takes the place of the first one.
      obtain ⟨y, rest, hs', hpipeline⟩ := mergeNext_put_over_ok hnewb heb rfl hs
      have hy := hmerged.mem_of_enabled List.mem_cons_self hea
      obtain ⟨rfl, rfl⟩ := List.cons.inj (hcurrent.symm.trans hs')
      rw [hpipeline] at hy
      rw [hcurrent] at hnodup
      rcases List.mem_cons.mp hy with heq | hy
      · exact hab heq
      · exact (List.nodup_cons.mp hnodup).1 hy
    · -- The second one comes before the first one.
      have hlast := (mergeNext_put_before hnewb heb rfl (by simp) hcurrent).symm.trans hs
      have hmanaged := hmerged.managed
      rw [← Option.some.inj hlast, List.filter_append, hu.filter_mem,
        List.filter_cons_of_pos (by simp [second_mem]),
        List.filter_cons_of_pos (by simp [first_mem]), hv.filter_mem] at hmanaged
      simp [hea, heb, names, hab.symm] at hmanaged

/-- Only the second one is in the list. -/
theorem results_second (hab : a.name ≠ b.name) (hnodup : current.Nodup) {u v : List String}
    (hcurrent : current = u ++ b.name :: v) (hu : Others a b u) (hv : Others a b v) :
    (∃ pipeline, Results a b current pipeline ∧ Merged [a, b] current pipeline) ↔
      Mergeable [a, b] current := by
  have hb : b.name ∈ current := by simp [hcurrent]
  have ha : a.name ∉ current := by
    rw [hcurrent, List.mem_append, List.mem_cons, not_or, not_or]
    exact ⟨fun hn => hu _ hn (first_mem a b), hab, fun hn => hv _ hn (first_mem a b)⟩
  have hloc := existing_append hnodup hcurrent
  have hnewa := existing_of_not_mem ha
  rw [mergeable_pair_iff (fun heq => hab (congrArg PipelineStatus.name heq))]
  simp only [PipelineStatus.stale, PipelineStatus.missing, ha, hb, not_false_eq_true, not_true_eq_false,
    and_true, and_false, false_and, false_or, true_and, Bool.not_eq_true, false_implies]
  have hmanaged : current.filter (· ∈ names [a, b]) = [b.name] := by
    rw [hcurrent, List.filter_append, hu.filter_mem, List.filter_cons_of_pos (by simp [second_mem]),
      hv.filter_mem]
    rfl
  cases hea : a.enabled <;> cases heb : b.enabled
  case false.false =>
    rcases List.eq_nil_or_concat' u with rfl | ⟨u, x, rfl⟩
    · refine iff_of_true ⟨v, ⟨{ pipeline := v, lastMatched := 0 }, ?_, rfl⟩,
      ?_, ?_, ?_⟩ (by simp [hcurrent])
      · rw [mergeNext_skip hnewa (by simp [hea])]
        exact mergeNext_cut_first hloc (by simp [heb]) rfl hcurrent
      · rw [hcurrent] at hnodup
        exact (List.nodup_cons.mp hnodup).2
      · rw [hcurrent, List.nil_append, List.filter_cons_of_neg (by simp [second_mem])]
      · rw [hv.filter_mem]
        simp [hea, heb, names]
    · rw [List.append_assoc] at hcurrent
      refine iff_of_false ?_ ?_
      · rintro ⟨pipeline, ⟨s, hs, rfl⟩, hmerged⟩
        rw [mergeNext_skip hnewa (by simp [hea])] at hs
        exact lost_by_cut _ hloc (by simp [heb]) (by simp) hcurrent hnodup hs
          (hmerged.not_lost (by simp [hcurrent]) (hu x (by simp)))
      · have hhead := head?_ne hnodup hcurrent
        simp [hhead]
  case false.true =>
    refine iff_of_true ⟨current, ⟨{ pipeline := current, lastMatched := u.length }, ?_, rfl⟩,
      hnodup, rfl, ?_⟩ (by simp)
    · rw [mergeNext_skip hnewa (by simp [hea])]
      exact mergeNext_keep hloc heb
    · rw [hmanaged]
      simp [hea, heb, names]
  case true.false =>
    refine iff_of_false ?_ (by simp)
    rintro ⟨pipeline, ⟨s, hs, rfl⟩, hmerged⟩
    rw [mergeNext_put_front hnewa hea rfl] at hs
    have hnodup' : (a.name :: current).Nodup := List.nodup_cons.mpr ⟨ha, hnodup⟩
    rcases List.eq_nil_or_concat' u with rfl | ⟨u, x, rfl⟩
    · -- The first one, just put in, is lost.
      exact lost_by_cut [] hloc (by simp [heb]) rfl (congrArg _ hcurrent) hnodup' hs
        (hmerged.mem_of_enabled List.mem_cons_self hea)
    · rw [List.append_assoc] at hcurrent
      exact lost_by_cut (a.name :: u) hloc (by simp [heb]) (by simp) (congrArg _ hcurrent) hnodup' hs
        (hmerged.not_lost (by simp [hcurrent]) (hu x (by simp)))
  case true.true =>
    refine iff_of_true ⟨a.name :: current,
      ⟨{ pipeline := a.name :: current, lastMatched := (u.length + 1 : Nat), inserts := 1 }, ?_, rfl⟩,
      ?_, ?_, ?_⟩ (by simp)
    · rw [mergeNext_put_front hnewa hea rfl]
      exact mergeNext_keep hloc heb
    · exact List.nodup_cons.mpr ⟨ha, hnodup⟩
    · rw [List.filter_cons_of_neg (by simp [first_mem])]
    · rw [List.filter_cons_of_pos (by simp [first_mem]), hmanaged]
      simp [hea, heb, names]

/-- Both are in the list, in the order of the spec. -/
theorem results_both (hab : a.name ≠ b.name) (hnodup : current.Nodup) {u v w : List String}
    (hcurrent : current = u ++ a.name :: (v ++ b.name :: w)) (hu : Others a b u) (hv : Others a b v)
    (hw : Others a b w) :
    (∃ pipeline, Results a b current pipeline ∧ Merged [a, b] current pipeline) ↔
      Mergeable [a, b] current := by
  have ha : a.name ∈ current := by simp [hcurrent]
  have hb : b.name ∈ current := by simp [hcurrent]
  have hloca := existing_append hnodup hcurrent
  have hlocb : existingPositions current b.name = some (u ++ a.name :: v).length :=
    existing_append hnodup (by rw [hcurrent, List.append_assoc]; rfl)
  rw [mergeable_pair_iff (fun heq => hab (congrArg PipelineStatus.name heq))]
  simp only [PipelineStatus.stale, PipelineStatus.missing, ha, hb, not_false_eq_true, not_true_eq_false,
    and_true, and_false, true_and, Bool.not_eq_true, false_implies]
  have hmanaged : (v ++ b.name :: w).filter (· ∈ names [a, b]) = [b.name] := by
    rw [List.filter_append, hv.filter_mem, List.filter_cons_of_pos (by simp [second_mem]), hw.filter_mem]
    rfl
  cases hea : a.enabled <;> cases heb : b.enabled
  case false.false =>
    refine iff_of_false ?_ (by simp)
    rcases List.eq_nil_or_concat' u with rfl | ⟨u, x, rfl⟩
    · -- The second one is looked for one place too far on: it is what comes behind it that is cut out too.
      rintro ⟨pipeline, ⟨s, hs, rfl⟩, hmerged⟩
      rw [mergeNext_cut_first hloca (by simp [hea]) rfl hcurrent] at hs
      obtain ⟨y, rest, rfl, hpipeline⟩ := mergeNext_cut_ok hlocb (by simp [heb]) (by simp) rfl hs
      have hy := hmerged.not_lost (n := y) (by simp [hcurrent]) (hw y List.mem_cons_self)
      have hrest : (v ++ b.name :: y :: rest).Nodup := by
        rw [hcurrent] at hnodup
        exact (List.nodup_cons.mp hnodup).2
      rw [hpipeline] at hy
      rw [List.nodup_append] at hrest
      rcases List.mem_append.mp hy with hy | hy
      · exact hrest.2.2 y hy y (List.mem_cons_of_mem _ List.mem_cons_self) rfl
      · exact (List.nodup_cons.mp (List.nodup_cons.mp hrest.2.1).2).1 hy
    · rw [List.append_assoc] at hcurrent
      exact not_merged_of_cut_first hnodup hcurrent (hu x (by simp)) (by simp [hea])
  case false.true =>
    rcases List.eq_nil_or_concat' u with rfl | ⟨u, x, rfl⟩
    · refine iff_of_true ⟨v ++ b.name :: w,
        ⟨{ pipeline := v ++ b.name :: w, lastMatched := (v.length + 1 : Nat) }, ?_, rfl⟩,
      ?_, ?_, ?_⟩ (by simp [hcurrent])
      · rw [mergeNext_cut_first hloca (by simp [hea]) rfl hcurrent]
        exact mergeNext_keep hlocb heb
      · rw [hcurrent] at hnodup
        exact (List.nodup_cons.mp hnodup).2
      · rw [hcurrent, List.nil_append, List.filter_cons_of_neg (by simp [first_mem])]
      · rw [hmanaged]
        simp [hea, heb, names]
    · rw [List.append_assoc] at hcurrent
      refine iff_of_false (not_merged_of_cut_first hnodup hcurrent (hu x (by simp)) (by simp [hea])) ?_
      have hhead := head?_ne hnodup hcurrent
      simp [hhead]
  case true.false =>
    have hhead : current.head? ≠ some b.name := by
      rw [hcurrent]
      cases u with
      | nil => exact fun h => hab (Option.some.inj h)
      | cons y u => exact fun h => hu y List.mem_cons_self (Option.some.inj h ▸ second_mem a b)
    refine iff_of_false ?_ (by simp [hhead])
    rintro ⟨pipeline, ⟨s, hs, rfl⟩, hmerged⟩
    rw [mergeNext_keep hloca hea] at hs
    rcases List.eq_nil_or_concat' v with rfl | ⟨v, x, rfl⟩
    · -- The first one is lost.
      exact lost_by_cut _ hlocb (by simp [heb]) (by simp) hcurrent hnodup hs
        (hmerged.mem_of_enabled List.mem_cons_self hea)
    · have hsplit : current = (u ++ a.name :: v) ++ x :: b.name :: w := by
        rw [hcurrent, List.append_assoc, List.append_assoc]
        rfl
      exact lost_by_cut _ hlocb (by simp [heb]) (by simp; omega) hsplit hnodup hs
        (hmerged.not_lost (by simp [hcurrent]) (hv x (by simp)))
  case true.true =>
    refine iff_of_true ⟨current, ⟨{ pipeline := current, lastMatched := (u ++ a.name :: v).length }, ?_, rfl⟩,
      hnodup, rfl, ?_⟩ (by simp)
    · rw [mergeNext_keep hloca hea]
      exact mergeNext_keep hlocb heb
    · rw [hcurrent, List.filter_append, hu.filter_mem, List.filter_cons_of_pos (by simp [first_mem]), hmanaged]
      simp [hea, heb, names]

/-- The processors that are managed occur in the order of the spec. -/
def InOrder (spec : List PipelineStatus) (current : List String) : Prop :=
  (current.filter (· ∈ names spec)).Sublist (names spec)

theorem InOrder.not_behind (hab : a.name ≠ b.name) (h : InOrder [a, b] current) {u v : List String}
    (hcurrent : current = u ++ a.name :: v) : b.name ∉ u := by
  intro hb
  have hsub : [b.name, a.name].Sublist current := by
    rw [hcurrent]
    exact (List.singleton_sublist.mpr hb).append (List.singleton_sublist.mpr List.mem_cons_self)
  have hfilter := (hsub.filter (· ∈ names [a, b])).trans h
  rw [List.filter_cons_of_pos (by simp [second_mem]), List.filter_cons_of_pos (by simp [first_mem])] at hfilter
  exact hab (List.cons.inj (hfilter.eq_of_length rfl)).1.symm

theorem others_of {l : List String} (ha : a.name ∉ l) (hb : b.name ∉ l) : Others a b l := by
  intro n hn hmem
  rcases List.mem_cons.mp hmem with rfl | hmem
  · exact ha hn
  · exact hb (List.mem_singleton.mp hmem ▸ hn)

theorem results_pair_iff (hab : a.name ≠ b.name) (hnodup : current.Nodup) (horder : InOrder [a, b] current) :
    (∃ pipeline, Results a b current pipeline ∧ Merged [a, b] current pipeline) ↔
      Mergeable [a, b] current := by
  by_cases ha : a.name ∈ current
  · obtain ⟨u, v, hcurrent⟩ := List.append_of_mem ha
    have hbu := horder.not_behind hab hcurrent
    have hsplit := hnodup
    rw [hcurrent, List.nodup_append] at hsplit
    have hau : a.name ∉ u := fun hn => hsplit.2.2 _ hn _ List.mem_cons_self rfl
    have hav : a.name ∉ v := (List.nodup_cons.mp hsplit.2.1).1
    by_cases hb : b.name ∈ v
    · obtain ⟨v, w, rfl⟩ := List.append_of_mem hb
      have hv := (List.nodup_cons.mp hsplit.2.1).2
      rw [List.nodup_append] at hv
      rw [List.mem_append, not_or] at hav
      exact results_both hab hnodup hcurrent (others_of hau hbu)
        (others_of hav.1 fun hn => hv.2.2 _ hn _ List.mem_cons_self rfl)
        (others_of (fun hn => hav.2 (List.mem_cons_of_mem _ hn)) (List.nodup_cons.mp hv.2.1).1)
    · exact results_first hab hnodup hcurrent (others_of hau hbu) (others_of hav hb)
  · by_cases hb : b.name ∈ current
    · obtain ⟨u, v, hcurrent⟩ := List.append_of_mem hb
      have hsplit := hnodup
      rw [hcurrent, List.nodup_append] at hsplit
      rw [hcurrent, List.mem_append, not_or] at ha
      exact results_second hab hnodup hcurrent
        (others_of ha.1 fun hn => hsplit.2.2 _ hn _ List.mem_cons_self rfl)
        (others_of (fun hn => ha.2 (List.mem_cons_of_mem _ hn)) (List.nodup_cons.mp hsplit.2.1).1)
    · exact results_neither hab hnodup (others_of ha hb)

end Pair

/-! ### The pipelines -/

theorem mergeSpec_pair_iff {a b : PipelineStatus} {current : List String} :
    (∃ pipeline, mergeSpec [a, b] current = some (pipeline, none) ∧ Merged [a, b] current pipeline) ↔
      ∃ pipeline, Results a b current pipeline ∧ Merged [a, b] current pipeline := by
  refine exists_congr fun pipeline => and_congr_left fun hmerged => ?_
  have hfold : [a, b].foldlM (mergeNext (existingPositions current)) { pipeline := current } =
      (mergeNext (existingPositions current) { pipeline := current } a).bind
        (mergeNext (existingPositions current) · b) := by
    rw [List.foldlM_cons]
    refine congrArg _ (funext fun s => ?_)
    rw [List.foldlM_cons]
    exact bind_pure _
  rw [mergeSpec, hfold, Option.map_eq_some_iff]
  refine exists_congr fun s => and_congr_right fun _ => ?_
  have hcheck : s.pipeline = pipeline → ¬ checkDuplicateString s.pipeline = true := by
    rintro rfl
    rw [LogParsingPipeline.checkDuplicateString_iff, not_not]
    exact hmerged.nodup
  constructor
  · intro h
    split at h
    · cases h
    · exact (Prod.mk.inj h).1
  · intro h
    rw [if_neg (hcheck h), h]

theorem exists_pair_of_names {spec : List PipelineStatus} {n n' : String} (h : names spec = [n, n']) :
    ∃ a b : PipelineStatus, spec = [a, b] ∧ a.name = n ∧ b.name = n' := by
  obtain ⟨a, l, rfl, ha, hl⟩ := List.map_eq_cons_iff.mp h
  obtain ⟨b, l, rfl, hb, hl⟩ := List.map_eq_cons_iff.mp hl
  rw [List.map_eq_nil_iff] at hl
  exact ⟨a, b, by rw [hl], ha, hb⟩

theorem PipelineSpecs.exists_pair (specs : PipelineSpecs) {signal : Signal} (h : signal ≠ .logs) :
    ∃ a b : PipelineStatus, specs.spec signal = [a, b] ∧ a.name ≠ b.name ∧
      buildPipeline specs signal = mergeSpec [a, b] := by
  cases signal with
  | metrics =>
    obtain ⟨a, b, hspec, ha, hb⟩ := exists_pair_of_names specs.names_metrics
    refine ⟨a, b, hspec, by rw [ha, hb]; decide, funext fun current => ?_⟩
    rw [buildPipeline, hspec]
  | traces =>
    obtain ⟨a, b, hspec, ha, hb⟩ := exists_pair_of_names specs.names_traces
    refine ⟨a, b, hspec, by rw [ha, hb]; decide, funext fun current => ?_⟩
    rw [buildPipeline, hspec]
  | logs => exact absurd rfl h

/-- **The merged pipeline is the one that is wanted** if and only if nothing is cut out, and what is put in
has before it in the spec only processors that are disabled and not in the list, or nothing is put in, and
only the first processor of the list is cut out. -/
theorem buildPipeline_iff (specs : PipelineSpecs) {signal : Signal} (hsignal : signal ≠ .logs)
    {current : List String} (hnodup : current.Nodup) (horder : InOrder (specs.spec signal) current) :
    (∃ pipeline, buildPipeline specs signal current = some (pipeline, none) ∧
      Merged (specs.spec signal) current pipeline) ↔ Mergeable (specs.spec signal) current := by
  obtain ⟨a, b, hspec, hab, hbuild⟩ := specs.exists_pair hsignal
  rw [hspec] at horder ⊢
  rw [hbuild, mergeSpec_pair_iff]
  exact results_pair_iff hab hnodup horder

/-- The batch processor is put in. -/
theorem buildPipeline_iff_batch : ∃ pipeline,
    buildPipeline .initial .traces ["memory_limiter"] = some (pipeline, none) ∧
      Merged tracesPipelineSpec ["memory_limiter"] pipeline := by
  have horder : InOrder (PipelineSpecs.initial.spec .traces) ["memory_limiter"] := List.nil_sublist _
  refine (buildPipeline_iff .initial (by decide) (by decide) horder).mpr (Or.inl ⟨fun m hm hstale => ?_, ?_⟩)
  · have hm : m ∈ tracesPipelineSpec := hm
    simp only [tracesPipelineSpec, List.mem_cons, List.not_mem_nil, or_false] at hm
    rcases hm with rfl | rfl
    · exact absurd hstale.2 (by decide)
    · exact absurd hstale.2 (by decide)
  · exact List.pairwise_pair.mpr fun _ => by decide

/-- Sampling at the tail is disabled: the processor before it is cut out too. -/
theorem not_merged_tail_sampling : ¬ ∃ pipeline,
    buildPipeline .initial .traces ["memory_limiter", "signoz_tail_sampling", "batch"] = some (pipeline, none) ∧
      Merged tracesPipelineSpec ["memory_limiter", "signoz_tail_sampling", "batch"] pipeline := by
  rintro ⟨pipeline, h, hmerged⟩
  have hresult : buildPipeline .initial .traces ["memory_limiter", "signoz_tail_sampling", "batch"] =
      some (["batch"], none) := by decide
  obtain rfl := (Prod.mk.inj (Option.some.inj (hresult.symm.trans h))).1
  have hlost := hmerged.not_lost (n := "memory_limiter") List.mem_cons_self (by decide)
  exact absurd hlost (by decide)

end QueryService.OpAMP
