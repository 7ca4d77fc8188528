import BoringPanel.QueryService.Rules.ActiveAlerts
import BoringPanel.QueryService.Rules.SavedHistory

/-!
# The history of a rule and its alerts

The rows that evaluations write, and the alerts that they leave in memory, over runs with restarts of
the rule. Alerts have the hash of their labels as a key, rows that of the labels of the query result,
so two alerts may share a fingerprint. The history agrees with the alerts as long as no evaluation
resolves an alert that shares it with an alert of the result (`Clear`, `agrees_of_step`).
-/

namespace QueryService.Rules

variable {F : Type}

/-! ### Runs -/

/-- A rule with the rows of its history, in the order in which they were written. -/
structure Recorded (F : Type) where
  rule : RuleState F
  history : List (RuleStateHistory F)

inductive Action (F : Type) where
  | eval (r : Round F)
  /-- The process is started again, or the rule is made anew. -/
  | restart

namespace RuleTask

variable (task : RuleTask F)

/-- `Eval` for a round. -/
def evaluate (s : RuleState F) (r : Round F) :
    Except EvalError (RuleState F × List (RuleStateHistory F)) :=
  task.rule.eval task.xxhash task.templates r.evalRange r.store r.ts r.res s

inductive RecordStep : Recorded F → Action F → Recorded F → Prop
  | eval {s : Recorded F} {r : Round F} {rule : RuleState F} {written : List (RuleStateHistory F)}
      (h : task.evaluate s.rule r = .ok (rule, written))
      (hsaved : ∀ saved ∈ r.store.lastSaved, LastSaved s.history saved) :
      RecordStep s (.eval r) ⟨rule, s.history ++ written⟩
  | failed {s : Recorded F} {r : Round F} {err : EvalError} (h : task.evaluate s.rule r = .error err) :
      RecordStep s (.eval r) s
  | restart {s : Recorded F} : RecordStep s .restart ⟨RuleState.init, s.history⟩

/-- The fingerprint of an alert. -/
def fingerprint (a : Alert F) : UInt64 := Labels.hash task.xxhash a.queryResultLables

/-- Some alert with the fingerprint fires. -/
def Alerting (active : Go.Table UInt64 (Alert F)) (fp : UInt64) : Prop :=
  ∃ k a, active.lookup k = some a ∧ a.state = .firing ∧ task.fingerprint a = fp

/-- **The history agrees with the alerts in memory.** A fingerprint without rows is inactive. -/
structure Agrees (s : Recorded F) : Prop where
  alerting : ∀ fp, task.Alerting s.rule.active fp →
    ∃ row, lastWritten s.history fp = some row ∧ row.state.alerting
  inactive : ∀ fp, ¬ task.Alerting s.rule.active fp →
    ∀ row, lastWritten s.history fp = some row → row.state = .inactive

/-- The alert of a hash that the result has, as it is in memory, with its fingerprint. -/
def InResult (active alerts : Go.Table UInt64 (Alert F)) (fp : UInt64) : Prop :=
  ∃ k a, (alerts.lookup k).isSome ∧ task.rule.merged active alerts k = some a ∧
    task.fingerprint a = fp

/-- An evaluation that keeps the history in agreement. -/
structure ClearEval (s : Recorded F) (r : Round F) : Prop where
  /-- The first evaluation after a restart succeeds. -/
  succeeds : s.rule.handledRestart = true ∨ (task.evaluate s.rule r).isOk
  /-- The history can be read and written. -/
  read : r.store.lastSaved ≠ none
  writes : r.store.writes = true
  /-- An alert that is resolved shares its fingerprint with no alert of the result. -/
  apart : ∀ samples alerts, r.res = .ok samples →
    task.rule.resultAlerts task.xxhash task.templates r.ts samples = .ok alerts →
    ∀ k b, s.rule.active.lookup k = some b → b.state = .firing → alerts.lookup k = none →
      ¬ task.InResult s.rule.active alerts (task.fingerprint b)

def Clear (s : Recorded F) : Action F → Prop
  | .eval r => task.ClearEval s r
  | .restart => True

/-! ### The rows of one evaluation -/

section Rows

variable {task} {ts : Go.Time} {samples : List (Sample F)} {active alerts : Go.Table UInt64 (Alert F)}
variable {k : UInt64} {item : RuleStateHistory F}

theorem queryResultLables_visit {rule : ThresholdRule} {inResult : Bool} {a a' : Alert F}
    (h : rule.visit ts inResult a = some a') : a'.queryResultLables = a.queryResultLables := by
  unfold ThresholdRule.visit at h
  split at h
  · split at h
    · obtain rfl := Option.some.inj h
      rfl
    · obtain rfl := Option.some.inj h
      rfl
  · split at h
    · cases h
    · split at h
      · obtain rfl := Option.some.inj h
        rfl
      · obtain rfl := Option.some.inj h
        rfl

/-- A row is written for an alert that begins to fire, or for one that is resolved. -/
theorem mergedItem_cases (h : task.rule.mergedItem task.xxhash ts active alerts k = some item) :
    (item.state.alerting ∧ task.InResult active alerts item.fingerprint) ∨
    (item.state = .inactive ∧ alerts.lookup k = none ∧ ∃ b, active.lookup k = some b ∧
      b.state ≠ .inactive ∧ task.fingerprint b = item.fingerprint) := by
  obtain ⟨a, ha, hitem⟩ := Option.bind_eq_some_iff.mp h
  unfold ThresholdRule.visitItem at hitem
  split at hitem
  · rename_i hin
    split at hitem
    · obtain rfl := Option.some.inj hitem
      refine .inl ⟨?_, k, a, hin, ha, rfl⟩
      show (if a.missing then AlertState.noData else .firing).alerting
      cases a.missing with
      | false => rfl
      | true => rfl
    · cases hitem
  · rename_i hout
    have hnone : alerts.lookup k = none := Option.not_isSome_iff_eq_none.mp hout
    rw [ThresholdRule.merged, hnone] at ha
    split at hitem
    · rename_i hstate
      obtain rfl := Option.some.inj hitem
      exact .inr ⟨rfl, hnone, a, ha, hstate, rfl⟩
    · cases hitem

/-- The alerts that fire after an evaluation are those of the result. -/
theorem alerting_iff_inResult (halerts : task.rule.resultAlerts task.xxhash task.templates ts samples = .ok alerts)
    (hactive : ∀ k, ∀ b ∈ active.lookup k, b.Fires ∨ b.Resolved) {active' : Go.Table UInt64 (Alert F)}
    (h : ∀ k, active'.lookup k =
      (task.rule.merged active alerts k).bind (task.rule.visit ts (alerts.lookup k).isSome))
    (fp : UInt64) : task.Alerting active' fp ↔ task.InResult active alerts fp := by
  constructor
  · rintro ⟨k, a', ha', hfires, rfl⟩
    have hevolves := ThresholdRule.evolves_merged task.holdDuration halerts hactive k
    rw [← h k] at hevolves
    have hin : (alerts.lookup k).isSome := by
      by_contra hout
      rw [Bool.not_eq_true] at hout
      rw [hout] at hevolves
      rw [hevolves.inactive a' ha'] at hfires
      cases hfires
    rw [h k] at ha'
    obtain ⟨a, ha, hvisit⟩ := Option.bind_eq_some_iff.mp ha'
    refine ⟨k, a, hin, ha, ?_⟩
    rw [fingerprint, fingerprint, queryResultLables_visit hvisit]
  · rintro ⟨k, a, hin, ha, rfl⟩
    have hevolves := ThresholdRule.evolves_merged task.holdDuration halerts hactive k
    rw [← h k, hin] at hevolves
    obtain ⟨a', ha', hfires⟩ := hevolves.firing
    refine ⟨k, a', ha', hfires, ?_⟩
    rw [h k] at ha'
    obtain ⟨a₀, ha₀, hvisit⟩ := Option.bind_eq_some_iff.mp ha'
    obtain rfl : a₀ = a := Option.some.inj (ha₀.symm.trans ha)
    rw [fingerprint, fingerprint, queryResultLables_visit hvisit]

variable {items : List (RuleStateHistory F)} {prevState currentState : AlertState} {fp : UInt64}

/-- The rows of an evaluation that keeps apart what is resolved and what is in the result. -/
theorem state_of_mem_items
    (hitems : ∀ row, row ∈ items ↔ ∃ k item,
      task.rule.mergedItem task.xxhash ts active alerts k = some item ∧
      row = ThresholdRule.withOverall prevState currentState item)
    (hactive : ∀ k, ∀ b ∈ active.lookup k, b.Fires ∨ b.Resolved)
    (hapart : ∀ k b, active.lookup k = some b → b.state = .firing → alerts.lookup k = none →
      ¬ task.InResult active alerts (task.fingerprint b)) {row : RuleStateHistory F} (h : row ∈ items) :
    (row.state.alerting ∧ task.InResult active alerts row.fingerprint) ∨
    (row.state = .inactive ∧ ¬ task.InResult active alerts row.fingerprint) := by
  obtain ⟨k, item, hitem, rfl⟩ := (hitems row).mp h
  rcases mergedItem_cases hitem with hin | ⟨hstate, hout, b, hb, hlive, hfp⟩
  · exact .inl hin
  · refine .inr ⟨hstate, ?_⟩
    have hfires : b.state = .firing := by
      rcases hactive k b hb with hfires | hresolved
      · exact hfires.state
      · exact absurd hresolved.state hlive
    show ¬ task.InResult active alerts item.fingerprint
    rw [← hfp]
    exact hapart k b hb hfires hout

/-- Where an evaluation writes no row for a fingerprint, it fires as before. -/
theorem alerting_of_no_item (halerts : task.rule.resultAlerts task.xxhash task.templates ts samples = .ok alerts)
    (hitems : ∀ row, row ∈ items ↔ ∃ k item,
      task.rule.mergedItem task.xxhash ts active alerts k = some item ∧
      row = ThresholdRule.withOverall prevState currentState item)
    (hactive : ∀ k, ∀ b ∈ active.lookup k, b.Fires ∨ b.Resolved)
    (hnone : ∀ row ∈ items, row.fingerprint ≠ fp) :
    task.Alerting active fp ↔ task.InResult active alerts fp := by
  have hno : ∀ k item, task.rule.mergedItem task.xxhash ts active alerts k = some item →
      item.fingerprint ≠ fp := fun k item hitem =>
    hnone (ThresholdRule.withOverall prevState currentState item)
      ((hitems _).mpr ⟨k, item, hitem, rfl⟩)
  constructor
  · rintro ⟨k, b, hb, hfires, rfl⟩
    cases hk : alerts.lookup k with
    | some a =>
      -- the alert stays, with the new value
      refine ⟨k, task.rule.joined (some b) a, by rw [hk]; rfl, ?_, ?_⟩
      · rw [ThresholdRule.merged, hk, hb]
      · have hlive : b.state ≠ .inactive := by simp [hfires]
        rw [ThresholdRule.joined, if_pos hlive]
        rfl
    | none =>
      -- the alert is resolved, which is recorded
      have hlive : b.state ≠ .inactive := by simp [hfires]
      refine absurd rfl (hno k (task.rule.historyItem task.xxhash ts b .inactive) ?_)
      rw [ThresholdRule.mergedItem, ThresholdRule.merged, hk, hb]
      show task.rule.visitItem task.xxhash ts false b = _
      rw [ThresholdRule.visitItem, if_neg Bool.false_ne_true, if_pos hlive]
  · rintro ⟨k, a, hin, ha, rfl⟩
    have hevolves := ThresholdRule.evolves_merged task.holdDuration halerts hactive k
    have hitem := hno k
    rw [hin, ha] at hevolves
    generalize task.rule.mergedItem task.xxhash ts active alerts k = item at hevolves hitem
    generalize hold : active.lookup k = old at hevolves
    generalize hnew : (some a).bind (task.rule.visit ts true) = new at hevolves
    have hfp : ∀ a', new = some a' → task.fingerprint a' = task.fingerprint a := by
      rintro a' rfl
      rw [fingerprint, fingerprint, queryResultLables_visit hnew]
    cases hevolves with
    | keeps a' hb =>
      refine ⟨k, _, hold, hb.state, ?_⟩
      rw [← hfp _ rfl]
      rfl
    | fires hold hmem hk => exact absurd (hfp _ rfl) (hitem _ rfl)

end Rows

/-! ### The history after an evaluation -/

/-- What holds between evaluations. -/
structure Reconciled (task : RuleTask F) (s : Recorded F) : Prop where
  standing : ∀ k, ∀ b ∈ s.rule.active.lookup k, b.Fires ∨ b.Resolved
  /-- Before the first evaluation there are no alerts. -/
  fresh : s.rule.handledRestart = false → ∀ k, s.rule.active.lookup k = none
  /-- Only these states are ever written. -/
  known : ∀ fp row, lastWritten s.history fp = some row → row.state.alerting ∨ row.state = .inactive
  agrees : s.rule.handledRestart = true → task.Agrees s

variable {task : RuleTask F} {s : Recorded F} {r : Round F} {rule : RuleState F}
variable {written : List (RuleStateHistory F)}

/-- An evaluation leaves the history in agreement, whether it is the first one after a restart or
not. -/
theorem agrees_of_evaluate (hs : task.Reconciled s)
    (hclear : task.ClearEval s r) (hsaved : ∀ saved ∈ r.store.lastSaved, LastSaved s.history saved)
    (h : task.evaluate s.rule r = .ok (rule, written)) :
    rule.handledRestart = true ∧ task.Agrees ⟨rule, s.history ++ written⟩ := by
  obtain ⟨samples, alerts, items, hres, halerts, hlookup, hitems, hrecord⟩ := ThresholdRule.eval_ok h
  obtain ⟨saved, hread⟩ := Option.ne_none_iff_exists'.mp hclear.read
  have hlast := hsaved saved hread
  rw [recordRuleStateHistory, hread] at hrecord
  simp only [hclear.writes, if_true] at hrecord
  obtain ⟨rfl, hhandled⟩ := Prod.mk.inj hrecord
  refine ⟨hhandled.symm, ?_⟩
  have halerting := alerting_iff_inResult halerts hs.standing hlookup
  have hstate : ∀ row ∈ items,
      (row.state.alerting ∧ task.InResult s.rule.active alerts row.fingerprint) ∨
        (row.state = .inactive ∧ ¬ task.InResult s.rule.active alerts row.fingerprint) :=
    fun row => state_of_mem_items hitems hs.standing (hclear.apart samples alerts hres halerts)
  have hold : ∀ fp, (∀ row ∈ items, row.fingerprint ≠ fp) →
      (task.Alerting s.rule.active fp ↔ task.InResult s.rule.active alerts fp) :=
    fun fp => alerting_of_no_item halerts hitems hs.standing
  -- the last row of the evaluation for a fingerprint
  have hrow : ∀ fp row, lastWritten items fp = some row →
      (row.state.alerting ∧ task.InResult s.rule.active alerts fp) ∨
      (row.state = .inactive ∧ ¬ task.InResult s.rule.active alerts fp) := by
    intro fp row hrow
    obtain ⟨hmem, rfl⟩ := lastWritten_eq_some hrow
    exact hstate row hmem
  have hempty : s.rule.handledRestart = false → ∀ fp, ¬ task.Alerting s.rule.active fp := by
    rintro hfresh fp ⟨k, a, ha, -⟩
    rw [hs.fresh hfresh k] at ha
    cases ha
  by_cases hplain : s.rule.handledRestart = true ∨ saved = []
  · refine ⟨fun fp hfp => ?_, fun fp hfp row hlast' => ?_⟩
    · rw [halerting] at hfp
      rw [lastWritten_plain hplain]
      cases hitem : lastWritten items fp with
      | some row =>
        rcases hrow fp row hitem with ⟨halert, -⟩ | ⟨-, hnot⟩
        · exact ⟨row, rfl, halert⟩
        · exact absurd hfp hnot
      | none =>
        have hbefore := (hold fp (lastWritten_eq_none.mp hitem)).mpr hfp
        cases hhandledBefore : s.rule.handledRestart with
        | true => exact (hs.agrees hhandledBefore).alerting fp hbefore
        | false => exact absurd hbefore (hempty hhandledBefore fp)
    · rw [halerting] at hfp
      rw [lastWritten_plain hplain] at hlast'
      cases hitem : lastWritten items fp with
      | some row' =>
        rw [hitem] at hlast'
        obtain rfl := Option.some.inj hlast'
        rcases hrow fp row' hitem with ⟨-, hin⟩ | ⟨hinactive, -⟩
        · exact absurd hin hfp
        · exact hinactive
      | none =>
        rw [hitem, Option.none_or] at hlast'
        have hbefore := mt (hold fp (lastWritten_eq_none.mp hitem)).mp hfp
        rcases hplain with hhandledBefore | rfl
        · exact (hs.agrees hhandledBefore).inactive fp hbefore row hlast'
        · rw [← hlast.find] at hlast'
          cases hlast'
  · obtain ⟨hfresh, hne⟩ := not_or.mp hplain
    have hfresh := Bool.eq_false_of_not_eq_true hfresh
    rw [hfresh]
    have hlastState := @lastWritten_restart F s.history saved items r.store.now hlast hne
    refine ⟨fun fp hfp => ?_, fun fp hfp row hlast' => ?_⟩
    · rw [halerting] at hfp
      obtain ⟨item, hitem⟩ : ∃ item, lastWritten items fp = some item := by
        rw [← Option.ne_none_iff_exists']
        intro hnone
        exact hempty hfresh fp ((hold fp (lastWritten_eq_none.mp hnone)).mpr hfp)
      have halert : ∀ item ∈ items, item.fingerprint = fp → item.state.alerting := by
        rintro item hmem rfl
        rcases hstate item hmem with ⟨halert, -⟩ | ⟨-, hnot⟩
        · exact halert
        · exact absurd hfp hnot
      obtain ⟨state, hafter, hstateAlert⟩ :=
        @restartState_alerting F items (lastWritten s.history fp) fp _ hitem halert
      rw [← hlastState fp] at hafter
      obtain ⟨row, hrow', rfl⟩ := Option.map_eq_some_iff.mp hafter
      exact ⟨row, hrow', hstateAlert⟩
    · rw [halerting] at hfp
      have hinactive : ∀ item ∈ items, item.fingerprint = fp → item.state = .inactive := by
        rintro item hmem rfl
        rcases hstate item hmem with ⟨-, hin⟩ | ⟨hinactive, -⟩
        · exact absurd hin hfp
        · exact hinactive
      refine restartState_inactive hinactive (hs.known fp) ?_
      rw [← hlastState fp]
      exact congrArg (Option.map RuleStateHistory.state) hlast'

/-- What holds between evaluations is kept by every step that meets the condition. -/
theorem reconciled_of_step {a : Action F} {s' : Recorded F}
    (hs : task.Reconciled s) (h : Guarded task.RecordStep task.Clear s a s') :
    task.Reconciled s' ∧ (∀ r, a = .eval r → task.Agrees s') := by
  obtain ⟨hstep, hclear⟩ := h
  cases hstep with
  | @eval r rule written heval hsaved =>
    obtain ⟨hhandled, hagrees⟩ := agrees_of_evaluate hs hclear hsaved heval
    refine ⟨⟨fun k => ?_, fun hfresh => ?_, fun fp row hrow => ?_, fun _ => hagrees⟩,
      fun _ _ => hagrees⟩
    · obtain ⟨samples, alerts, items, -, halerts, hlookup, -⟩ := ThresholdRule.eval_ok heval
      have hevolves := ThresholdRule.evolves_merged task.holdDuration halerts hs.standing k
      rw [← hlookup k] at hevolves
      exact hevolves.standing (Go.Time.isZero_unix r.unixNano)
    · rw [hhandled] at hfresh
      cases hfresh
    · by_cases hfp : task.Alerting rule.active fp
      · obtain ⟨row', hrow', halert⟩ := hagrees.alerting fp hfp
        obtain rfl := Option.some.inj (hrow'.symm.trans hrow)
        exact .inl halert
      · exact .inr (hagrees.inactive fp hfp row hrow)
  | @failed r err herr =>
    refine ⟨hs, fun r' _ => ?_⟩
    rcases hclear.succeeds with hhandled | hok
    · exact hs.agrees hhandled
    · rw [herr] at hok
      cases hok
  | restart =>
    refine ⟨⟨?_, fun _ k => rfl, hs.known, fun h => ?_⟩, fun r hr => ?_⟩
    · intro k b hb
      cases hb
    · cases h
    · cases hr

theorem reconciled_init : task.Reconciled ⟨RuleState.init, []⟩ where
  standing _ _ h := by cases h
  fresh _ _ := rfl
  known _ _ h := by cases h
  agrees h := by cases h

/-- **The history agrees with the alerts in memory after every evaluation** of a run in which each
evaluation meets the condition. -/
theorem agrees_of_run (task : RuleTask F) {actions : List (Action F)} {s s' : Recorded F} {r : Round F}
    (h : Run (Guarded task.RecordStep task.Clear) ⟨RuleState.init, []⟩ actions s)
    (hlast : Guarded task.RecordStep task.Clear s (.eval r) s') : task.Agrees s' := by
  have hs : task.Reconciled s :=
    h.invariant reconciled_init fun s a s' hs hstep => (reconciled_of_step hs hstep).1
  exact (reconciled_of_step hs hlast).2 r rfl

/-! ### A rule with a template in its labels -/

/-- The state after `Eval`. -/
def record (task : RuleTask F) (s : Recorded F) (r : Round F) : Recorded F :=
  match task.evaluate s.rule r with
  | .ok (rule, written) => ⟨rule, s.history ++ written⟩
  | .error _ => s

theorem recordStep_record (hsaved : ∀ saved ∈ r.store.lastSaved, LastSaved s.history saved) :
    task.RecordStep s (.eval r) (task.record s r) := by
  rw [record]
  cases h : task.evaluate s.rule r with
  | error err => exact .failed h
  | ok out => exact .eval h hsaved

theorem lastSaved_singleton (row : RuleStateHistory F) : LastSaved [row] [row] where
  nodup := List.nodup_singleton _
  find fp := by
    rw [lastWritten]
    by_cases hfp : row.fingerprint = fp
    · simp [hfp]
    · simp [hfp]

/-- A rule whose label `level` is the value. -/
def levelTask : RuleTask Int where
  rule := ThresholdRule.new "1" "high load" "" [⟨"level", "{{$value}}"⟩] [] []
  holdDuration := rfl
  xxhash bytes := UInt64.ofNat bytes.length
  templates := ⟨toString, "0",
    fun _ _ value _ text => if text = "{{$value}}" then value else text, fun _ _ => none⟩
  resendDelay := 60000000000
  frequency := 60000000000

def firstRound : Round Int := roundAt 0 [⟨[], 5, false⟩]

def firstRecord : Recorded Int := levelTask.record ⟨RuleState.init, []⟩ firstRound

theorem agrees_of_run_level : levelTask.Agrees firstRecord := by
  refine agrees_of_run levelTask .nil ⟨recordStep_record ?_, ?_, ?_, ?_, ?_⟩
  · rintro _ ⟨⟩
    exact ⟨List.nodup_nil, fun _ => rfl⟩
  · exact .inr (by decide)
  · simp [firstRound, roundAt]
  · rfl
  · rintro samples alerts - - k b ⟨⟩

/-- A minute later the value is another one. The alert that is resolved is visited last. -/
def secondRound : Round Int where
  unixNano := 60000000000
  res := .ok [⟨[], 10, false⟩]
  store := ⟨some firstRecord.history, true, Go.Time.unix 60000000000⟩
  evalRange := Go.Table.RangeOrder.backwards
  sendRange := Go.Table.RangeOrder.inOrder

/-- The alert with the new value fires, but the last row of its fingerprint says inactive. -/
theorem not_agrees_level : ¬ ∀ actions s s' r,
    Run levelTask.RecordStep ⟨RuleState.init, []⟩ actions s → levelTask.RecordStep s (.eval r) s' →
      levelTask.Agrees s' := by
  intro h
  have hfirst : Run levelTask.RecordStep ⟨RuleState.init, []⟩ [.eval firstRound] firstRecord := by
    refine .snoc .nil (recordStep_record ?_)
    rintro _ ⟨⟩
    exact ⟨List.nodup_nil, fun _ => rfl⟩
  have hsecond : levelTask.RecordStep firstRecord (.eval secondRound)
      (levelTask.record firstRecord secondRound) := by
    refine recordStep_record ?_
    rintro _ ⟨⟩
    exact lastSaved_singleton _
  obtain ⟨row, hrow, halert⟩ := (h _ _ _ _ hfirst hsecond).alerting 0 ⟨50, _, rfl, by decide, by decide⟩
  have hinactive : (lastWritten (levelTask.record firstRecord secondRound).history 0).map
      RuleStateHistory.state = some .inactive := by decide
  rw [hrow] at hinactive
  rw [Option.some.inj hinactive] at halert
  cases halert

end RuleTask

end QueryService.Rules
