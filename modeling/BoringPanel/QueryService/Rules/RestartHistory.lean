import BoringPanel.QueryService.Rules.StateHistory

/-!
# The first evaluation after a restart

The rows that the first evaluation writes, on top of the rows that are saved. They give each fingerprint
the state that it has in the evaluation. Their overall state is found from the rows that are written,
which leave out the fingerprints that alert as before (`reconciles_iff`).
-/

namespace QueryService.Rules

variable {F : Type}

/-- The result of `buildAndRunQuery`: a sample for missing data is the only one. -/
structure QueryResult (F : Type) where
  samples : List (Sample F)
  alone : ∀ smpl ∈ samples, smpl.isMissing → samples = [smpl]

/-- The state in which the alert of a sample fires. -/
def Sample.firingState (smpl : Sample F) : AlertState := if smpl.isMissing then .noData else .firing

theorem Sample.alerting_firingState (smpl : Sample F) : smpl.firingState.alerting := by
  unfold firingState
  cases smpl.isMissing with
  | false => rfl
  | true => rfl

/-- The samples of a result fire in one state. -/
theorem QueryResult.firingState_eq (q : QueryResult F) {smpl smpl' : Sample F}
    (h : smpl ∈ q.samples) (h' : smpl' ∈ q.samples) : smpl'.firingState = smpl.firingState := by
  by_cases hmissing : smpl.isMissing ∨ smpl'.isMissing
  · have hone : smpl' = smpl := by
      rcases hmissing with hmissing | hmissing
      · rw [q.alone smpl h hmissing] at h'
        exact List.mem_singleton.mp h'
      · rw [q.alone smpl' h' hmissing] at h
        exact (List.mem_singleton.mp h).symm
    rw [hone]
  · simp only [not_or, Bool.not_eq_true] at hmissing
    rw [Sample.firingState, Sample.firingState, hmissing.1, hmissing.2]

namespace RuleTask

variable (task : RuleTask F)

def sampleFingerprint (smpl : Sample F) : UInt64 :=
  Labels.hash task.xxhash (ThresholdRule.resultLabels smpl)

/-- The state of a fingerprint in an evaluation. -/
def evaluatedState (samples : List (Sample F)) (fp : UInt64) : AlertState :=
  match samples.find? fun smpl => task.sampleFingerprint smpl = fp with
  | some smpl => smpl.firingState
  | none => .inactive

/-- The state of a fingerprint when the rows that are written are applied on top of the saved ones. -/
def reconciledState (saved written : List (RuleStateHistory F)) (fp : UInt64) : AlertState :=
  ((lastWritten (saved ++ written) fp).map RuleStateHistory.state).getD .inactive

/-- The saved overall state. -/
def savedOverall (saved : List (RuleStateHistory F)) : AlertState :=
  (saved.head?.map RuleStateHistory.overallState).getD .inactive

/-- **The rows reconcile the saved state with that of the evaluation.** -/
structure Reconciles (saved : List (RuleStateHistory F)) (samples : List (Sample F))
    (written : List (RuleStateHistory F)) : Prop where
  states : ∀ fp, reconciledState saved written fp = task.evaluatedState samples fp
  overall : ∀ row ∈ written,
    row.overallState = .firing ↔ ∃ fp, (reconciledState saved written fp).alerting
  changed : ∀ row ∈ written,
    row.overallStateChanged = true ↔ row.overallState ≠ savedOverall saved

/-- Some fingerprint of the result has no saved row. -/
def Unsaved (saved : List (RuleStateHistory F)) (samples : List (Sample F)) : Prop :=
  ∃ smpl ∈ samples, task.sampleFingerprint smpl ∉ saved.map RuleStateHistory.fingerprint

/-- A saved row has another state than its fingerprint in the evaluation. -/
def Outdated (samples : List (Sample F)) (row : RuleStateHistory F) : Prop :=
  row.state ≠ task.evaluatedState samples row.fingerprint

instance (samples : List (Sample F)) (row : RuleStateHistory F) :
    Decidable (task.Outdated samples row) :=
  inferInstanceAs (Decidable (_ ≠ _))

/-- A row is written for a fingerprint that alerts in the evaluation. -/
def AlertsAnew (saved : List (RuleStateHistory F)) (samples : List (Sample F)) : Prop :=
  task.Unsaved saved samples ∨
    ∃ row ∈ saved, task.Outdated samples row ∧ (task.evaluatedState samples row.fingerprint).alerting

/-- The overall state of the rows that are written. -/
def Verdict (saved : List (RuleStateHistory F)) (samples : List (Sample F)) (v : AlertState) : Prop :=
  v = .firing ∧ task.AlertsAnew saved samples ∨ v = .inactive ∧ ¬ task.AlertsAnew saved samples

/-- The saved rows that the evaluation does not have were left alerting or inactive. -/
def Known (samples : List (Sample F)) (saved : List (RuleStateHistory F)) : Prop :=
  ∀ row ∈ saved, task.evaluatedState samples row.fingerprint = .inactive →
    row.state.alerting ∨ row.state = .inactive

/-- The saved rows and results for which the rows are right. -/
structure Restorable (saved : List (RuleStateHistory F)) (samples : List (Sample F)) : Prop where
  known : task.Known samples saved
  overall :
    -- nothing is written
    (¬ task.Unsaved saved samples ∧ ∀ row ∈ saved, ¬ task.Outdated samples row) ∨
    -- the verdict is new, and right: some alert is written, unless there is none
    (¬ task.Verdict saved samples (savedOverall saved) ∧
      (samples = [] ∨ task.AlertsAnew saved samples)) ∨
    -- the verdict is the saved one, and each row that is changed says so already
    (task.Verdict saved samples (savedOverall saved) ∧ ¬ task.Unsaved saved samples ∧
      ∀ row ∈ saved, task.Outdated samples row →
        (row.overallState = .firing ↔ samples ≠ []) ∧
        (row.overallStateChanged = true ↔ row.overallState ≠ savedOverall saved))

/-! ### The rows of the first evaluation -/

/-- The overall state of alerts that all fire. -/
theorem maxState_firing {active : Go.Table UInt64 (Alert F)} (hne : active.entries ≠ [])
    (h : ∀ e ∈ active.entries, e.2.state = .firing) : maxState active = .firing := by
  have hfold : ∀ (l : List (UInt64 × Alert F)) (s : AlertState), (∀ e ∈ l, e.2.state = .firing) →
      (s = .inactive ∨ s = .firing) →
      l.foldl (fun s e => if s.toNat < e.2.state.toNat then e.2.state else s) s =
        if l = [] then s else .firing := by
    intro l
    induction l with
    | nil => exact fun _ _ _ => rfl
    | cons e l ih =>
      intro s hl hs
      have he := hl e List.mem_cons_self
      rw [List.foldl_cons, he]
      have hstep : (if s.toNat < AlertState.firing.toNat then AlertState.firing else s) = .firing := by
        rcases hs with rfl | rfl
        · rfl
        · rfl
      rw [hstep, ih _ (fun e he => hl e (List.mem_cons_of_mem _ he)) (.inr rfl)]
      simp
  rw [maxState, hfold _ _ h (.inl rfl), if_neg hne]

variable {task}

/-- The rows of a first evaluation are those of its samples. -/
structure FirstItems (task : RuleTask F) (samples : List (Sample F))
    (items : List (RuleStateHistory F)) : Prop where
  of_mem : ∀ row ∈ items, ∃ smpl ∈ samples, row.fingerprint = task.sampleFingerprint smpl ∧
    row.state = smpl.firingState ∧ row.overallState = .firing ∧ row.overallStateChanged = true
  mem : ∀ smpl ∈ samples, ∃ row ∈ items, row.fingerprint = task.sampleFingerprint smpl

theorem firstItems_of_evaluate {r : Round F} {rule : RuleState F} {written : List (RuleStateHistory F)}
    (h : task.evaluate RuleState.init r = .ok (rule, written)) :
    ∃ samples items, r.res = .ok samples ∧ FirstItems task samples items ∧
      recordRuleStateHistory r.store false items = (written, rule.handledRestart) := by
  obtain ⟨samples, alerts, items, hres, halerts, hlookup, hitems, hrecord⟩ := ThresholdRule.eval_ok h
  have hnone : ∀ k, (RuleState.init : RuleState F).active.lookup k = none := fun _ => rfl
  have hevolves : ∀ k, Evolves task.xxhash task.rule task.templates r.ts samples k none
      (alerts.lookup k).isSome (rule.active.lookup k)
      (task.rule.mergedItem task.xxhash r.ts RuleState.init.active alerts k) := by
    intro k
    rw [hlookup k, ← hnone k]
    exact ThresholdRule.evolves_merged task.holdDuration halerts (by simp [hnone]) k
  -- every alert is a new one, which fires
  have hfires : ∀ e ∈ rule.active.entries, e.2.state = .firing := by
    intro e he
    have hk := hevolves e.1
    rw [Go.Table.lookup_eq_some.mpr he] at hk
    rcases hk.of_none with ⟨hnew, -⟩ | ⟨smpl, -, hnew, -⟩
    · cases hnew
    · rw [Option.some.inj hnew]
  refine ⟨samples, items, hres, ⟨fun row hrow => ?_, fun smpl hsmpl => ?_⟩, hrecord⟩
  · obtain ⟨k, item, hitem, rfl⟩ := (hitems row).mp hrow
    rcases (hevolves k).of_none with ⟨-, hno⟩ | ⟨smpl, hsmpl, hnew, hsome⟩
    · rw [hno] at hitem
      cases hitem
    · have hfiring : maxState rule.active = .firing := by
        refine maxState_firing (fun hempty => ?_) hfires
        have hmem := Go.Table.lookup_eq_some.mp hnew
        rw [hempty] at hmem
        cases hmem
      obtain rfl := Option.some.inj (hsome.symm.trans hitem)
      refine ⟨smpl, hsmpl, rfl, rfl, hfiring, ?_⟩
      show decide (maxState rule.active ≠ .inactive) = true
      rw [hfiring]
      rfl
  · have halert : alerts.lookup (task.rule.sampleHash task.xxhash task.templates r.ts smpl) =
        some (task.rule.newAlert task.templates r.ts smpl) :=
      (ThresholdRule.lookup_resultAlerts halerts).mpr ⟨smpl, hsmpl, rfl, rfl⟩
    have hitem : task.rule.mergedItem task.xxhash r.ts RuleState.init.active alerts
        (task.rule.sampleHash task.xxhash task.templates r.ts smpl) =
          some (task.rule.historyItem task.xxhash r.ts (task.rule.newAlert task.templates r.ts smpl)
            (if smpl.isMissing then .noData else .firing)) := by
      rw [ThresholdRule.mergedItem, ThresholdRule.merged, halert]
      exact (ThresholdRule.visit_newAlert _ _ _ task.holdDuration smpl).2
    exact ⟨_, (hitems _).mpr ⟨_, _, hitem, rfl⟩, rfl⟩

section Restart

variable {q : QueryResult F} {items saved : List (RuleStateHistory F)} {fp : UInt64}
variable {row : RuleStateHistory F} {now : Go.Time}

theorem evaluatedState_of_mem {smpl : Sample F} (h : smpl ∈ q.samples) :
    task.evaluatedState q.samples (task.sampleFingerprint smpl) = smpl.firingState := by
  unfold evaluatedState
  cases hfind : q.samples.find? fun s => task.sampleFingerprint s = task.sampleFingerprint smpl with
  | some smpl' => exact q.firingState_eq h (List.mem_of_find?_eq_some hfind)
  | none =>
    have := List.find?_eq_none.mp hfind smpl h
    simp at this

theorem evaluatedState_of_not_mem (h : ∀ smpl ∈ q.samples, task.sampleFingerprint smpl ≠ fp) :
    task.evaluatedState q.samples fp = .inactive := by
  have hnone : (q.samples.find? fun smpl => task.sampleFingerprint smpl = fp) = none := by
    rw [List.find?_eq_none]
    intro smpl hsmpl
    simpa using h smpl hsmpl
  unfold evaluatedState
  rw [hnone]

theorem alerting_evaluatedState_iff : (task.evaluatedState q.samples fp).alerting ↔
    ∃ smpl ∈ q.samples, task.sampleFingerprint smpl = fp := by
  constructor
  · intro halert
    by_contra hno
    rw [evaluatedState_of_not_mem fun smpl hsmpl hfp => hno ⟨smpl, hsmpl, hfp⟩] at halert
    cases halert
  · rintro ⟨smpl, hsmpl, rfl⟩
    rw [evaluatedState_of_mem hsmpl]
    exact smpl.alerting_firingState

theorem exists_alerting_iff : (∃ fp, (task.evaluatedState q.samples fp).alerting) ↔
    q.samples ≠ [] := by
  constructor
  · rintro ⟨fp, halert⟩ hnil
    obtain ⟨smpl, hsmpl, -⟩ := alerting_evaluatedState_iff.mp halert
    rw [hnil] at hsmpl
    cases hsmpl
  · intro hne
    obtain ⟨smpl, hsmpl⟩ := List.exists_mem_of_ne_nil _ hne
    exact ⟨_, alerting_evaluatedState_iff.mpr ⟨smpl, hsmpl, rfl⟩⟩

/-- A row of the evaluation has the state of its fingerprint. -/
theorem FirstItems.state_eq (h : FirstItems task q.samples items) (hrow : row ∈ items) :
    row.state = task.evaluatedState q.samples row.fingerprint := by
  obtain ⟨smpl, hsmpl, hfp, hstate, -⟩ := h.of_mem row hrow
  rw [hstate, hfp, evaluatedState_of_mem hsmpl]

theorem FirstItems.alerting (h : FirstItems task q.samples items) (hrow : row ∈ items) :
    (task.evaluatedState q.samples row.fingerprint).alerting := by
  obtain ⟨smpl, hsmpl, hfp, -⟩ := h.of_mem row hrow
  exact alerting_evaluatedState_iff.mpr ⟨smpl, hsmpl, hfp.symm⟩

/-- Without a row, the fingerprint is inactive in the evaluation. -/
theorem FirstItems.inactive (h : FirstItems task q.samples items)
    (hno : ∀ row ∈ items, row.fingerprint ≠ fp) : task.evaluatedState q.samples fp = .inactive := by
  refine evaluatedState_of_not_mem fun smpl hsmpl hfp => ?_
  obtain ⟨row, hrow, hrowfp⟩ := h.mem smpl hsmpl
  exact hno row hrow (hrowfp.trans hfp)

theorem FirstItems.find_state (h : FirstItems task q.samples items) :
    ((items.find? fun row => row.fingerprint = fp).map RuleStateHistory.state).getD .inactive =
      task.evaluatedState q.samples fp := by
  cases hfind : items.find? fun row => row.fingerprint = fp with
  | some row =>
    have hfp : row.fingerprint = fp := by simpa using List.find?_some hfind
    rw [← hfp]
    exact h.state_eq (List.mem_of_find?_eq_some hfind)
  | none =>
    refine (h.inactive fun row hrow hfp => ?_).symm
    have := List.find?_eq_none.mp hfind row hrow
    simp [hfp] at this

theorem FirstItems.last_state (h : FirstItems task q.samples items) :
    ((lastWritten items fp).map RuleStateHistory.state).getD .inactive =
      task.evaluatedState q.samples fp := by
  cases hlast : lastWritten items fp with
  | some row =>
    obtain ⟨hmem, hfp⟩ := lastWritten_eq_some hlast
    rw [← hfp]
    exact h.state_eq hmem
  | none => exact (h.inactive (lastWritten_eq_none.mp hlast)).symm

theorem lastSaved_self (hnd : (saved.map RuleStateHistory.fingerprint).Nodup) :
    LastSaved saved saved where
  nodup := hnd
  find fp := by
    rw [lastWritten, Go.Table.filter_eq_toList RuleStateHistory.fingerprint fp hnd]
    cases saved.find? fun row => row.fingerprint = fp with
    | none => rfl
    | some row => rfl

/-- The state of a fingerprint after the restart: that of the evaluation, except where the saved row is
neither alerting nor inactive and stays. -/
theorem reconciledState_eq (h : FirstItems task q.samples items)
    (hnd : (saved.map RuleStateHistory.fingerprint).Nodup) (fp : UInt64) :
    reconciledState saved ((revisedItems now false saved items).entries.map Prod.snd) fp =
      match lastWritten saved fp with
      | some row =>
        if task.evaluatedState q.samples fp = .inactive ∧ ¬ row.state.alerting then row.state
        else task.evaluatedState q.samples fp
      | none => task.evaluatedState q.samples fp := by
  by_cases hne : saved = []
  · subst hne
    rw [reconciledState, List.nil_append]
    show ((lastWritten ((byFingerprint items).entries.map Prod.snd) fp).map _).getD _ = _
    rw [← List.nil_append ((byFingerprint items).entries.map Prod.snd),
      lastWritten_append (keyed_byFingerprint items), lookup_byFingerprint, lastWritten_nil,
      Option.or_none]
    exact h.last_state
  · rw [reconciledState, lastWritten_restart (lastSaved_self hnd) hne]
    unfold restartState
    cases lastWritten saved fp with
    | none => exact h.find_state
    | some row =>
      cases hlast : lastWritten items fp with
      | some item =>
        obtain ⟨hmem, rfl⟩ := lastWritten_eq_some hlast
        have hnot : ¬ (task.evaluatedState q.samples item.fingerprint = .inactive ∧
            ¬ row.state.alerting) := by
          rintro ⟨hinactive, -⟩
          have halert := h.alerting hmem
          rw [hinactive] at halert
          cases halert
        show item.state = if _ then _ else _
        rw [if_neg hnot]
        exact h.state_eq hmem
      | none =>
        have hinactive := h.inactive (lastWritten_eq_none.mp hlast)
        rw [hinactive]
        show (if row.state.alerting then AlertState.inactive else row.state) = _
        by_cases halert : row.state.alerting
        · simp [halert]
        · simp [halert]

/-- The states are those of the evaluation. -/
theorem states_iff_known (now : Go.Time) (h : FirstItems task q.samples items)
    (hnd : (saved.map RuleStateHistory.fingerprint).Nodup) :
    (∀ fp, reconciledState saved ((revisedItems now false saved items).entries.map Prod.snd) fp =
      task.evaluatedState q.samples fp) ↔ task.Known q.samples saved := by
  constructor
  · intro hstates row hrow hinactive
    have hlast : lastWritten saved row.fingerprint = some row := lastWritten_of_mem hnd hrow
    have hfp := hstates row.fingerprint
    rw [reconciledState_eq h hnd, hlast] at hfp
    by_cases halert : row.state.alerting
    · exact .inl halert
    · have hkept : task.evaluatedState q.samples row.fingerprint = .inactive ∧ ¬ row.state.alerting :=
        ⟨hinactive, halert⟩
      dsimp only at hfp
      rw [if_pos hkept, hinactive] at hfp
      exact .inr hfp
  · intro hknown fp
    rw [reconciledState_eq h hnd]
    cases hlast : lastWritten saved fp with
    | none => rfl
    | some row =>
      obtain ⟨hmem, rfl⟩ := lastWritten_eq_some hlast
      show (if _ then _ else _) = _
      split
      · rename_i hboth
        rw [hboth.1]
        exact (hknown row hmem hboth.1).resolve_left hboth.2
      · rfl

/-- What is done to a saved row. -/
theorem savedChange_eq (h : FirstItems task q.samples items) (hknown : task.Known q.samples saved)
    (hrow : row ∈ saved) :
    savedChange now (byFingerprint items) row =
      if task.Outdated q.samples row then
        some { row with
          state := task.evaluatedState q.samples row.fingerprint, stateChanged := true
          unixMilli := now.unixMilli }
      else none := by
  unfold savedChange
  rw [lookup_byFingerprint]
  cases hlast : lastWritten items row.fingerprint with
  | some item =>
    obtain ⟨hmem, hfp⟩ := lastWritten_eq_some hlast
    have hstate := h.state_eq hmem
    rw [hfp] at hstate
    simp only [hstate]
    by_cases houtdated : task.Outdated q.samples row
    · have hne : row.state ≠ task.evaluatedState q.samples row.fingerprint := houtdated
      rw [if_pos hne, if_pos houtdated]
    · have hne : ¬ row.state ≠ task.evaluatedState q.samples row.fingerprint := houtdated
      rw [if_neg hne, if_neg houtdated]
  | none =>
    have hinactive := h.inactive (lastWritten_eq_none.mp hlast)
    show (if row.state.alerting then _ else none) = _
    rcases hknown row hrow hinactive with halert | hstate
    · have houtdated : task.Outdated q.samples row := by
        rw [Outdated, hinactive]
        intro heq
        rw [heq] at halert
        cases halert
      rw [if_pos halert, if_pos houtdated, hinactive]
    · have halert : ¬ row.state.alerting := by simp [hstate, AlertState.alerting]
      have houtdated : ¬ task.Outdated q.samples row := by
        rw [Outdated, hinactive]
        exact not_not.mpr hstate
      rw [if_neg halert, if_neg houtdated]

/-- The rows to write: the saved rows that are out of date, and the rows of new fingerprints. -/
theorem revised_cases (h : FirstItems task q.samples items) (hknown : task.Known q.samples saved)
    (hnd : (saved.map RuleStateHistory.fingerprint).Nodup)
    (hrow : (reviseItems now saved items).lookup fp = some row) :
    (∃ old ∈ saved, task.Outdated q.samples old ∧
      row.state = task.evaluatedState q.samples old.fingerprint ∧
      row.overallState = old.overallState ∧ row.overallStateChanged = old.overallStateChanged) ∨
    (task.Unsaved saved q.samples ∧ row.state.alerting ∧ row.overallState = .firing ∧
      row.overallStateChanged = true) := by
  rw [lookup_reviseItems now hnd] at hrow
  cases hsaved : saved.find? fun row => row.fingerprint = fp with
  | some old =>
    have hold := List.mem_of_find?_eq_some hsaved
    rw [hsaved] at hrow
    change savedChange now (byFingerprint items) old = some row at hrow
    rw [savedChange_eq h hknown hold] at hrow
    split at hrow
    · rename_i houtdated
      obtain rfl := Option.some.inj hrow
      exact .inl ⟨old, hold, houtdated, rfl, rfl, rfl⟩
    · cases hrow
  | none =>
    rw [hsaved] at hrow
    have hmem := List.mem_of_find?_eq_some hrow
    have hfp : row.fingerprint = fp := by simpa using List.find?_some hrow
    obtain ⟨smpl, hsmpl, hrowfp, hstate, hoverall, hchanged⟩ := h.of_mem row hmem
    refine .inr ⟨⟨smpl, hsmpl, ?_⟩, ?_, hoverall, hchanged⟩
    · rw [← hrowfp, hfp]
      intro hin
      obtain ⟨old, hold, holdfp⟩ := List.mem_map.mp hin
      have := List.find?_eq_none.mp hsaved old hold
      simp [holdfp] at this
    · rw [hstate]
      exact smpl.alerting_firingState

/-- A saved row that is out of date is written again. -/
theorem revised_of_outdated (now : Go.Time) (h : FirstItems task q.samples items)
    (hknown : task.Known q.samples saved) (hnd : (saved.map RuleStateHistory.fingerprint).Nodup)
    (hrow : row ∈ saved) (houtdated : task.Outdated q.samples row) :
    (reviseItems now saved items).lookup row.fingerprint = some { row with
      state := task.evaluatedState q.samples row.fingerprint, stateChanged := true
      unixMilli := now.unixMilli } := by
  rw [lookup_reviseItems now hnd, (lastSaved_self hnd).find, lastWritten_of_mem hnd hrow]
  show savedChange now (byFingerprint items) row = _
  rw [savedChange_eq h hknown hrow, if_pos houtdated]

/-- A new fingerprint gets the row of the evaluation. -/
theorem revised_of_unsaved (now : Go.Time) (h : FirstItems task q.samples items)
    (hnd : (saved.map RuleStateHistory.fingerprint).Nodup) (hunsaved : task.Unsaved saved q.samples) :
    ∃ fp row, (reviseItems now saved items).lookup fp = some row ∧ row.state.alerting ∧
      row.overallState = .firing ∧ row.overallStateChanged = true := by
  obtain ⟨smpl, hsmpl, hnew⟩ := hunsaved
  have hsaved : (saved.find? fun row => row.fingerprint = task.sampleFingerprint smpl) = none := by
    rw [List.find?_eq_none]
    intro row hrow hfp
    refine hnew ?_
    rw [← of_decide_eq_true hfp]
    exact List.mem_map_of_mem hrow
  obtain ⟨item, hitem, hfp⟩ := h.mem smpl hsmpl
  cases hfirst : items.find? fun row => row.fingerprint = task.sampleFingerprint smpl with
  | none =>
    have := List.find?_eq_none.mp hfirst item hitem
    simp [hfp] at this
  | some row =>
    have hmem := List.mem_of_find?_eq_some hfirst
    obtain ⟨smpl', -, -, hstate, hoverall, hchanged⟩ := h.of_mem row hmem
    refine ⟨task.sampleFingerprint smpl, row, ?_, ?_, hoverall, hchanged⟩
    · rw [lookup_reviseItems now hnd, hsaved]
      exact hfirst
    · rw [hstate]
      exact smpl'.alerting_firingState

/-- The overall state is found from the rows that are written. -/
theorem verdict_revisedState (now : Go.Time) (h : FirstItems task q.samples items)
    (hknown : task.Known q.samples saved) (hnd : (saved.map RuleStateHistory.fingerprint).Nodup) :
    task.Verdict saved q.samples (revisedState (reviseItems now saved items)) := by
  have halerts : ((reviseItems now saved items).entries.any fun e => e.2.state.alerting) = true ↔
      task.AlertsAnew saved q.samples := by
    rw [List.any_eq_true]
    constructor
    · rintro ⟨⟨fp, row⟩, hmem, halert⟩
      rcases revised_cases h hknown hnd (Go.Table.lookup_eq_some.mpr hmem) with
        ⟨old, hold, houtdated, hstate, -⟩ | ⟨hunsaved, -⟩
      · refine .inr ⟨old, hold, houtdated, ?_⟩
        rw [← hstate]
        exact halert
      · exact .inl hunsaved
    · rintro (hunsaved | ⟨old, hold, houtdated, halert⟩)
      · obtain ⟨fp, row, hrow, halert, -⟩ := revised_of_unsaved now h hnd hunsaved
        exact ⟨(fp, row), Go.Table.lookup_eq_some.mp hrow, halert⟩
      · exact ⟨_, Go.Table.lookup_eq_some.mp (revised_of_outdated now h hknown hnd hold houtdated),
          halert⟩
  unfold Verdict revisedState
  by_cases hanew : task.AlertsAnew saved q.samples
  · rw [if_pos (halerts.mpr hanew)]
    exact .inl ⟨rfl, hanew⟩
  · rw [if_neg (mt halerts.mp hanew)]
    exact .inr ⟨rfl, hanew⟩

theorem Verdict.unique {v v' : AlertState} (h : task.Verdict saved q.samples v)
    (h' : task.Verdict saved q.samples v') : v = v' := by
  rcases h with ⟨rfl, hanew⟩ | ⟨rfl, hnot⟩ <;> rcases h' with ⟨rfl, hanew'⟩ | ⟨rfl, hnot'⟩
  · rfl
  · exact absurd hanew hnot'
  · exact absurd hanew' hnot
  · rfl

theorem Verdict.eq_firing_iff {v : AlertState} (h : task.Verdict saved q.samples v) :
    v = .firing ↔ task.AlertsAnew saved q.samples := by
  rcases h with ⟨rfl, hanew⟩ | ⟨rfl, hnot⟩
  · exact iff_of_true rfl hanew
  · exact iff_of_false AlertState.noConfusion hnot

theorem AlertsAnew.samples_ne_nil (h : task.AlertsAnew saved q.samples) : q.samples ≠ [] := by
  rcases h with ⟨smpl, hsmpl, -⟩ | ⟨row, -, -, halert⟩
  · exact List.ne_nil_of_mem hsmpl
  · exact exists_alerting_iff.mp ⟨_, halert⟩

theorem mem_rows {t : Go.Table UInt64 (RuleStateHistory F)} :
    row ∈ t.entries.map Prod.snd ↔ ∃ fp, t.lookup fp = some row := by
  rw [List.mem_map]
  constructor
  · rintro ⟨⟨fp, row'⟩, hmem, rfl⟩
    exact ⟨fp, Go.Table.lookup_eq_some.mpr hmem⟩
  · rintro ⟨fp, hrow⟩
    exact ⟨(fp, row), Go.Table.lookup_eq_some.mp hrow, rfl⟩

/-- Where nothing is saved, the rows of the evaluation are right. -/
theorem reconciles_of_nothing_saved (h : FirstItems task q.samples items) :
    task.Reconciles [] q.samples ((revisedItems now false [] items).entries.map Prod.snd) := by
  have hstates := (@states_iff_known F task q items [] now h List.nodup_nil).mpr (by simp [Known])
  have hrows : ∀ row ∈ (revisedItems now false [] items).entries.map Prod.snd, row ∈ items := by
    intro row hrow
    obtain ⟨fp, hrow⟩ := mem_rows.mp hrow
    change (byFingerprint items).lookup fp = some row at hrow
    rw [lookup_byFingerprint] at hrow
    exact (lastWritten_eq_some hrow).1
  refine ⟨hstates, fun row hrow => ?_, fun row hrow => ?_⟩
  · obtain ⟨-, -, -, -, hoverall, -⟩ := h.of_mem row (hrows row hrow)
    refine iff_of_true hoverall ⟨row.fingerprint, ?_⟩
    rw [hstates]
    exact h.alerting (hrows row hrow)
  · obtain ⟨-, -, -, -, hoverall, hchanged⟩ := h.of_mem row (hrows row hrow)
    refine iff_of_true hchanged ?_
    rw [hoverall]
    exact AlertState.noConfusion

theorem restorable_nil : task.Restorable [] q.samples := by
  refine ⟨by simp [Known], ?_⟩
  by_cases hne : q.samples = []
  · refine .inl ⟨?_, by simp⟩
    rintro ⟨smpl, hsmpl, -⟩
    rw [hne] at hsmpl
    cases hsmpl
  · obtain ⟨smpl, hsmpl⟩ := List.exists_mem_of_ne_nil _ hne
    have hanew : task.AlertsAnew [] q.samples := .inl ⟨smpl, hsmpl, by simp⟩
    refine .inr (.inl ⟨?_, .inr hanew⟩)
    rintro (⟨hfiring, -⟩ | ⟨-, hnot⟩)
    · cases hfiring
    · exact hnot hanew

/-- The rows of a restart are right exactly when the saved rows and the result are as `Restorable`
says. -/
theorem reconciles_restart_iff {first : RuleStateHistory F} {rest : List (RuleStateHistory F)}
    (h : FirstItems task q.samples items)
    (hnd : ((first :: rest).map RuleStateHistory.fingerprint).Nodup) :
    task.Reconciles (first :: rest) q.samples
        ((revisedItems now false (first :: rest) items).entries.map Prod.snd) ↔
      task.Restorable (first :: rest) q.samples := by
  have hstates := states_iff_known now h hnd
  -- the rows that are written
  have hrows : ∀ row, row ∈ (revisedItems now false (first :: rest) items).entries.map Prod.snd ↔
      ∃ fp row', (reviseItems now (first :: rest) items).lookup fp = some row' ∧
        row = if first.overallState ≠ revisedState (reviseItems now (first :: rest) items) then
          { row' with
            overallState := revisedState (reviseItems now (first :: rest) items)
            overallStateChanged := true }
        else row' := by
    intro row
    rw [mem_rows]
    refine exists_congr fun fp => ?_
    show (restartItems now first (first :: rest) items).lookup fp = some row ↔ _
    rw [lookup_restartItems, Option.map_eq_some_iff]
    exact exists_congr fun row' => and_congr Iff.rfl eq_comm
  generalize hV : revisedState (reviseItems now (first :: rest) items) = V at hrows
  constructor
  · intro hrec
    have hknown := hstates.mp hrec.states
    have hverdict := verdict_revisedState now h hknown hnd
    rw [hV] at hverdict
    have hfiring : (∃ fp, (reconciledState (first :: rest)
        ((revisedItems now false (first :: rest) items).entries.map Prod.snd) fp).alerting) ↔
          q.samples ≠ [] := by
      simp only [hrec.states]
      exact exists_alerting_iff
    refine ⟨hknown, ?_⟩
    by_cases hsame : first.overallState = V
    · refine .inr (.inr ⟨?_, fun hunsaved => ?_, fun row hrow houtdated => ?_⟩)
      · show task.Verdict _ _ first.overallState
        rw [hsame]
        exact hverdict
      · -- the row of a new fingerprint says that the overall state changes
        obtain ⟨fp, row, hrow, -, hoverall, hchanged⟩ := revised_of_unsaved now h hnd hunsaved
        have hmem := (hrows row).mpr ⟨fp, row, hrow, by rw [if_neg (not_not.mpr hsame)]⟩
        refine (hrec.changed row hmem).mp hchanged ?_
        rw [hoverall]
        show _ = first.overallState
        rw [hsame, hverdict.eq_firing_iff.mpr (.inl hunsaved)]
      · have hwritten := revised_of_outdated now h hknown hnd hrow houtdated
        have hmem := (hrows _).mpr ⟨_, _, hwritten, by rw [if_neg (not_not.mpr hsame)]⟩
        have hoverall := hrec.overall _ hmem
        have hchanged := hrec.changed _ hmem
        rw [hfiring] at hoverall
        exact ⟨hoverall, hchanged⟩
    · by_cases hnothing : ¬ task.Unsaved (first :: rest) q.samples ∧
          ∀ row ∈ first :: rest, ¬ task.Outdated q.samples row
      · exact .inl hnothing
      · refine .inr (.inl ⟨fun hsaved => hsame (hsaved.unique hverdict), ?_⟩)
        -- some row is written, with the verdict
        obtain ⟨fp, row, hrow⟩ :
            ∃ fp row, (reviseItems now (first :: rest) items).lookup fp = some row := by
          by_cases hunsaved : task.Unsaved (first :: rest) q.samples
          · obtain ⟨fp, row, hrow, -⟩ := revised_of_unsaved now h hnd hunsaved
            exact ⟨fp, row, hrow⟩
          · obtain ⟨row, hrow, houtdated⟩ : ∃ row ∈ first :: rest, task.Outdated q.samples row := by
              by_contra hno
              exact hnothing ⟨hunsaved, fun row hrow houtdated => hno ⟨row, hrow, houtdated⟩⟩
            exact ⟨_, _, revised_of_outdated now h hknown hnd hrow houtdated⟩
        have hmem := (hrows _).mpr ⟨fp, row, hrow, rfl⟩
        have hoverall := hrec.overall _ hmem
        rw [if_pos hsame, hfiring] at hoverall
        by_cases hempty : q.samples = []
        · exact .inl hempty
        · exact .inr (hverdict.eq_firing_iff.mp (hoverall.mpr hempty))
  · rintro ⟨hknown, hoverall⟩
    have hverdict := verdict_revisedState now h hknown hnd
    rw [hV] at hverdict
    have hfiring : (∃ fp, (reconciledState (first :: rest)
        ((revisedItems now false (first :: rest) items).entries.map Prod.snd) fp).alerting) ↔
          q.samples ≠ [] := by
      simp only [hstates.mpr hknown]
      exact exists_alerting_iff
    have hright : ∀ row ∈ (revisedItems now false (first :: rest) items).entries.map Prod.snd,
        (row.overallState = .firing ↔ q.samples ≠ []) ∧
        (row.overallStateChanged = true ↔ row.overallState ≠ savedOverall (first :: rest)) := by
      intro row hrow
      obtain ⟨fp, row', hrow', rfl⟩ := (hrows row).mp hrow
      have hcases := revised_cases h hknown hnd hrow'
      rcases hoverall with ⟨hsaved, hold⟩ | ⟨hnew, hanew⟩ | ⟨hsame, hsaved, hold⟩
      · rcases hcases with ⟨old, hmem, houtdated, -⟩ | ⟨hunsaved, -⟩
        · exact absurd houtdated (hold old hmem)
        · exact absurd hunsaved hsaved
      · have hne : first.overallState ≠ V := by
          intro heq
          refine hnew ?_
          show task.Verdict _ _ first.overallState
          rw [heq]
          exact hverdict
        rw [if_pos hne]
        refine ⟨?_, iff_of_true rfl (Ne.symm hne)⟩
        rw [hverdict.eq_firing_iff]
        exact ⟨fun h => h.samples_ne_nil, fun hne => hanew.resolve_left hne⟩
      · have heq : first.overallState = V := hsame.unique hverdict
        rw [if_neg (not_not.mpr heq)]
        rcases hcases with ⟨old, hmem, houtdated, -, hstate, hflag⟩ | ⟨hunsaved, -⟩
        · rw [hstate, hflag]
          exact hold old hmem houtdated
        · exact absurd hunsaved hsaved
    refine ⟨hstates.mpr hknown, fun row hrow => ?_, fun row hrow => (hright row hrow).2⟩
    rw [hfiring]
    exact (hright row hrow).1

end Restart

/-- The saved row of a fingerprint that fires. -/
def firingRow (fp : UInt64) : RuleStateHistory Int where
  ruleID := "1"
  ruleName := "high load"
  overallState := .firing
  overallStateChanged := true
  state := .firing
  stateChanged := true
  unixMilli := 0
  labels := []
  fingerprint := fp
  value := 5

def hostSample : Sample Int := ⟨[⟨"host", "a"⟩], 5, false⟩

/-- A result with one sample, whose fingerprint is 7. -/
def hostResult : QueryResult Int where
  samples := [hostSample]
  alone smpl hsmpl hmissing := by
    rw [List.mem_singleton.mp hsmpl] at hmissing
    cases hmissing

def restartRound (saved : List (RuleStateHistory Int)) : Round Int :=
  { roundAt 60000000000 [hostSample] with
    store := ⟨some saved, true, Go.Time.unix 60000000000⟩ }

/-- The rows of the first evaluation. -/
def restartRows (saved : List (RuleStateHistory Int)) : List (RuleStateHistory Int) :=
  (levelTask.record ⟨RuleState.init, []⟩ (restartRound saved)).history

end RuleTask

end QueryService.Rules
