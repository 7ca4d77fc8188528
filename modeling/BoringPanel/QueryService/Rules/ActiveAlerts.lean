import BoringPanel.Lib.Runs
import BoringPanel.QueryService.Rules.ThresholdRule

/-!
# The alerts of a threshold rule

What a run of evaluations does to the alerts in memory. `Evolves` says once what an evaluation does to
the alert of a hash (`eval_ok`, `evolves_merged`); the invariant of the alerts (`Sound`) and what the
notifier is handed at a round (`Delivers`) are derived from it.
-/

namespace QueryService.Rules

variable {F : Type}

namespace ThresholdRule

/-! ### One evaluation -/

section Evaluation

variable (rule : ThresholdRule) (xxhash : List UInt8 → UInt64) (templates : Templates F) (ts : Go.Time)

/-- The hash of the alert for a sample. -/
def sampleHash (smpl : Sample F) : UInt64 :=
  Labels.hash xxhash (rule.alertLabels templates ts smpl)

/-- The alert that a sample finds or makes. -/
def joined (old : Option (Alert F)) (a : Alert F) : Alert F :=
  match old with
  | some alert =>
    if alert.state ≠ .inactive then
      { alert with value := a.value, annotations := a.annotations, receivers := rule.preferredChannels }
    else a
  | none => a

variable {xxhash rule templates ts}

theorem addAlert_eq (active : Go.Table UInt64 (Alert F)) (h : UInt64) (a : Alert F) :
    rule.addAlert active h a = active.set h (rule.joined (active.lookup h) a) := by
  unfold addAlert joined
  cases active.lookup h with
  | none => rfl
  | some alert =>
    by_cases hstate : alert.state ≠ .inactive
    · simp only [if_pos hstate]
    · simp only [if_neg hstate]

theorem addResult_eq (alerts : Go.Table UInt64 (Alert F)) (smpl : Sample F) :
    rule.addResult xxhash templates ts alerts smpl =
      if (alerts.lookup (rule.sampleHash xxhash templates ts smpl)).isSome then .error .duplicate
      else .ok (alerts.set (rule.sampleHash xxhash templates ts smpl)
        (rule.newAlert templates ts smpl)) := rfl

/-- The loop over the samples, from the alerts of the samples before. -/
theorem lookup_foldlM_addResult {samples : List (Sample F)} :
    ∀ {alerts alerts' : Go.Table UInt64 (Alert F)},
      samples.foldlM (rule.addResult xxhash templates ts) alerts = .ok alerts' →
      ∀ k a, alerts'.lookup k = some a ↔ alerts.lookup k = some a ∨
        ∃ smpl ∈ samples, rule.sampleHash xxhash templates ts smpl = k ∧
          rule.newAlert templates ts smpl = a := by
  induction samples with
  | nil =>
    intro alerts alerts' h k a
    obtain rfl := Except.ok.inj h
    simp
  | cons smpl samples ih =>
    intro alerts alerts' h k a
    rw [List.foldlM_cons, addResult_eq] at h
    by_cases hdup : (alerts.lookup (rule.sampleHash xxhash templates ts smpl)).isSome
    · rw [if_pos hdup] at h
      cases h
    · rw [if_neg hdup, Go.ok_bind] at h
      have hnone := Option.not_isSome_iff_eq_none.mp hdup
      rw [ih h k a, Go.Table.lookup_set]
      split
      · rename_i hk
        simp [hk, hnone]
      · rename_i hk
        have hk' : ¬ rule.sampleHash xxhash templates ts smpl = k := fun heq => hk heq.symm
        simp [hk']

/-- The alerts of a result are those of its samples. -/
theorem lookup_resultAlerts {samples : List (Sample F)} {alerts : Go.Table UInt64 (Alert F)}
    (h : rule.resultAlerts xxhash templates ts samples = .ok alerts) {k : UInt64} {a : Alert F} :
    alerts.lookup k = some a ↔ ∃ smpl ∈ samples, rule.sampleHash xxhash templates ts smpl = k ∧
      rule.newAlert templates ts smpl = a := by
  rw [lookup_foldlM_addResult h k a]
  simp

theorem isSome_resultAlerts {samples : List (Sample F)} {alerts : Go.Table UInt64 (Alert F)}
    (h : rule.resultAlerts xxhash templates ts samples = .ok alerts) {k : UInt64} :
    (alerts.lookup k).isSome ↔ k ∈ samples.map (rule.sampleHash xxhash templates ts) := by
  rw [Option.isSome_iff_exists, List.mem_map]
  constructor
  · rintro ⟨a, ha⟩
    obtain ⟨smpl, hmem, hhash, -⟩ := (lookup_resultAlerts h).mp ha
    exact ⟨smpl, hmem, hhash⟩
  · rintro ⟨smpl, hmem, hhash⟩
    exact ⟨_, (lookup_resultAlerts h).mpr ⟨smpl, hmem, hhash, rfl⟩⟩

/-- The alerts in memory, with those of the result. -/
def merged (rule : ThresholdRule) (active alerts : Go.Table UInt64 (Alert F)) (k : UInt64) :
    Option (Alert F) :=
  match alerts.lookup k with
  | some a => some (rule.joined (active.lookup k) a)
  | none => active.lookup k

theorem lookup_addAlerts (active alerts : Go.Table UInt64 (Alert F)) (k : UInt64) :
    (alerts.entries.foldl (fun active e => rule.addAlert active e.1 e.2) active).lookup k =
      rule.merged active alerts k := by
  simp only [addAlert_eq]
  rw [Go.Table.lookup_setAll (fun old a => rule.joined old a), merged]
  cases alerts.lookup k with
  | none => rfl
  | some a => rfl

variable {range : Go.Table.RangeOrder UInt64 (Alert F)} {store : HistoryStore F}
variable {res : Except EvalError (List (Sample F))} {s s' : RuleState F}
variable {written : List (RuleStateHistory F)}

/-- The row of a hash that an evaluation adds to the history, before the overall state is known. -/
def mergedItem (xxhash : List UInt8 → UInt64) (rule : ThresholdRule) (ts : Go.Time)
    (active alerts : Go.Table UInt64 (Alert F)) (k : UInt64) : Option (RuleStateHistory F) :=
  (rule.merged active alerts k).bind (rule.visitItem xxhash ts (alerts.lookup k).isSome)

/-- A row with the overall state. -/
def withOverall (prevState currentState : AlertState) (item : RuleStateHistory F) :
    RuleStateHistory F :=
  { item with overallStateChanged := currentState ≠ prevState, overallState := currentState }

/-- **An evaluation that succeeds**, hash by hash: the alerts that it leaves, and the rows that it
records. -/
theorem eval_ok (h : rule.eval xxhash templates range store ts res s = .ok (s', written)) :
    ∃ samples alerts items, res = .ok samples ∧
      rule.resultAlerts xxhash templates ts samples = .ok alerts ∧
      (∀ k, s'.active.lookup k =
        (rule.merged s.active alerts k).bind (rule.visit ts (alerts.lookup k).isSome)) ∧
      (∀ row, row ∈ items ↔ ∃ k item, rule.mergedItem xxhash ts s.active alerts k = some item ∧
        row = withOverall (maxState s.active) (maxState s'.active) item) ∧
      recordRuleStateHistory store s.handledRestart items = (written, s'.handledRestart) := by
  cases res with
  | error err => cases h
  | ok samples =>
    rw [eval] at h
    cases halerts : rule.resultAlerts xxhash templates ts samples with
    | error err =>
      simp only [halerts, Go.ok_bind, Go.error_bind] at h
      cases h
    | ok alerts =>
      simp only [halerts, Go.ok_bind] at h
      obtain ⟨rfl, rfl⟩ := Prod.mk.inj (Except.ok.inj h)
      refine ⟨samples, alerts, _, rfl, halerts, fun k => ?_, fun row => ?_, rfl⟩
      · rw [Go.Table.lookup_sweep, Go.Table.RangeOrder.lookup_visited, lookup_addAlerts]
      · rw [List.mem_map]
        constructor
        · rintro ⟨item, hitem, rfl⟩
          obtain ⟨⟨k, a⟩, hmem, hvisit⟩ := List.mem_filterMap.mp hitem
          rw [Go.Table.RangeOrder.mem_visited, ← Go.Table.lookup_eq_some, lookup_addAlerts] at hmem
          exact ⟨k, item, Option.bind_eq_some_iff.mpr ⟨a, hmem, hvisit⟩, rfl⟩
        · rintro ⟨k, item, hitem, rfl⟩
          obtain ⟨a, ha, hvisit⟩ := Option.bind_eq_some_iff.mp hitem
          rw [← lookup_addAlerts, Go.Table.lookup_eq_some, ← Go.Table.RangeOrder.mem_visited] at ha
          exact ⟨item, List.mem_filterMap.mpr ⟨(k, a), ha, hvisit⟩, rfl⟩

end Evaluation

end ThresholdRule

/-! ### What becomes of one alert -/

/-- The alert fires, and has not been resolved. -/
structure Alert.Fires (a : Alert F) : Prop where
  state : a.state = .firing
  firedAt : a.firedAt.isZero = false
  resolvedAt : a.resolvedAt.isZero = true

/-- The alert has been resolved. -/
structure Alert.Resolved (a : Alert F) : Prop where
  state : a.state = .inactive
  resolvedAt : a.resolvedAt.isZero = false

/-- What an evaluation makes of the alert of a hash, which the result has or not, and the row that it
adds to the history. -/
inductive Evolves (xxhash : List UInt8 → UInt64) (rule : ThresholdRule) (templates : Templates F)
    (ts : Go.Time) (samples : List (Sample F)) (k : UInt64) :
    Option (Alert F) → Bool → Option (Alert F) → Option (RuleStateHistory F) → Prop
  | absent : Evolves xxhash rule templates ts samples k none false none none
  | keeps {b : Alert F} (a : Alert F) (hb : b.Fires) :
      Evolves xxhash rule templates ts samples k (some b) true
        (some { b with
          value := a.value, annotations := a.annotations, receivers := rule.preferredChannels }) none
  | fires {old : Option (Alert F)} {smpl : Sample F} (hold : ∀ b ∈ old, b.Resolved)
      (hmem : smpl ∈ samples) (hk : rule.sampleHash xxhash templates ts smpl = k) :
      Evolves xxhash rule templates ts samples k old true
        (some { rule.newAlert templates ts smpl with state := .firing, firedAt := ts })
        (some (rule.historyItem xxhash ts (rule.newAlert templates ts smpl)
          (if smpl.isMissing then .noData else .firing)))
  | resolves {b : Alert F} (hb : b.Fires) :
      Evolves xxhash rule templates ts samples k (some b) false
        (some { b with state := .inactive, resolvedAt := ts })
        (some (rule.historyItem xxhash ts b .inactive))
  | rests {b : Alert F} (hb : b.Resolved) (hrecent : ts.sub b.resolvedAt ≤ resolvedRetention) :
      Evolves xxhash rule templates ts samples k (some b) false (some b) none
  | leaves {b : Alert F} (hb : b.Resolved) :
      Evolves xxhash rule templates ts samples k (some b) false none none

section Evolves

variable {xxhash : List UInt8 → UInt64} {rule : ThresholdRule} {templates : Templates F} {ts : Go.Time}
variable {samples : List (Sample F)} {k : UInt64} {old new : Option (Alert F)}
variable {item : Option (RuleStateHistory F)} {inResult : Bool}

/-- An alert of the result fires. -/
theorem Evolves.firing (h : Evolves xxhash rule templates ts samples k old true new item) :
    ∃ a, new = some a ∧ a.state = .firing := by
  cases h with
  | keeps a hb => exact ⟨_, rfl, hb.state⟩
  | fires => exact ⟨_, rfl, rfl⟩

/-- Any other alert does not. -/
theorem Evolves.inactive (h : Evolves xxhash rule templates ts samples k old false new item) :
    ∀ a, new = some a → a.state = .inactive := by
  rintro a rfl
  cases h with
  | resolves => rfl
  | rests hb _ => exact hb.state

/-- Every alert fires or is resolved. -/
theorem Evolves.standing (h : Evolves xxhash rule templates ts samples k old inResult new item)
    (hts : ts.isZero = false) : ∀ a ∈ new, a.Fires ∨ a.Resolved := by
  rintro a rfl
  cases h with
  | keeps a hb => exact .inl ⟨hb.state, hb.firedAt, hb.resolvedAt⟩
  | fires => exact .inl ⟨rfl, hts, rfl⟩
  | resolves => exact .inr ⟨rfl, hts⟩
  | rests hb _ => exact .inr hb

/-- Where there was no alert, there is none now, or one that begins to fire. -/
theorem Evolves.of_none (h : Evolves xxhash rule templates ts samples k none inResult new item) :
    (new = none ∧ item = none) ∨ ∃ smpl ∈ samples,
      new = some { rule.newAlert templates ts smpl with state := .firing, firedAt := ts } ∧
      item = some (rule.historyItem xxhash ts (rule.newAlert templates ts smpl)
        (if smpl.isMissing then .noData else .firing)) := by
  cases h with
  | absent => exact .inl ⟨rfl, rfl⟩
  | fires _ hmem _ => exact .inr ⟨_, hmem, rfl, rfl⟩

end Evolves

namespace ThresholdRule

section Visit

variable {rule : ThresholdRule} {xxhash : List UInt8 → UInt64} {templates : Templates F}
variable {ts : Go.Time} {samples : List (Sample F)} {k : UInt64} {a b : Alert F}

theorem visit_of_not_pending (rule : ThresholdRule) (xxhash : List UInt8 → UInt64) (ts : Go.Time)
    (h : a.state ≠ .pending) :
    rule.visit ts true a = some a ∧ rule.visitItem xxhash ts true a = none := by
  simp [visit, visitItem, h]

theorem visit_newAlert (xxhash : List UInt8 → UInt64) (templates : Templates F) (ts : Go.Time)
    (hhold : rule.holdDuration = 0) (smpl : Sample F) :
    rule.visit ts true (rule.newAlert templates ts smpl) =
      some { rule.newAlert templates ts smpl with state := .firing, firedAt := ts } ∧
    rule.visitItem xxhash ts true (rule.newAlert templates ts smpl) =
      some (rule.historyItem xxhash ts (rule.newAlert templates ts smpl)
        (if smpl.isMissing then .noData else .firing)) := by
  have hpending : (rule.newAlert templates ts smpl).state = .pending ∧
      rule.holdDuration.toInt ≤ ts.sub (rule.newAlert templates ts smpl).activeAt := by
    refine ⟨rfl, ?_⟩
    show rule.holdDuration.toInt ≤ ts.sub ts
    rw [hhold, Go.Time.sub_self]
    rfl
  constructor
  · rw [visit, if_pos rfl, if_pos hpending]
  · rw [visitItem, if_pos rfl, if_pos hpending]
    rfl

theorem visit_fires (rule : ThresholdRule) (xxhash : List UInt8 → UInt64) (ts : Go.Time)
    (hb : b.Fires) :
    rule.visit ts false b = some { b with state := .inactive, resolvedAt := ts } ∧
    rule.visitItem xxhash ts false b = some (rule.historyItem xxhash ts b .inactive) := by
  simp [visit, visitItem, hb.state, hb.resolvedAt]

theorem visit_resolved (rule : ThresholdRule) (xxhash : List UInt8 → UInt64) (ts : Go.Time)
    (hb : b.Resolved) :
    rule.visit ts false b =
      (if resolvedRetention < ts.sub b.resolvedAt then none else some b) ∧
    rule.visitItem xxhash ts false b = none := by
  simp [visit, visitItem, hb.state, hb.resolvedAt]

/-- The alert of a hash that the result has: it is there and fires, or it fires now. -/
theorem evolves_joined (hhold : rule.holdDuration = 0) {old : Option (Alert F)} {smpl : Sample F}
    (hmem : smpl ∈ samples) (hk : rule.sampleHash xxhash templates ts smpl = k)
    (hold : ∀ b ∈ old, b.Fires ∨ b.Resolved) :
    Evolves xxhash rule templates ts samples k old true
      (rule.visit ts true (rule.joined old (rule.newAlert templates ts smpl)))
      (rule.visitItem xxhash ts true (rule.joined old (rule.newAlert templates ts smpl))) := by
  have hnew := visit_newAlert xxhash templates ts hhold smpl
  cases old with
  | none =>
    show Evolves _ _ _ _ _ _ _ _ (rule.visit ts true (rule.newAlert templates ts smpl))
      (rule.visitItem xxhash ts true (rule.newAlert templates ts smpl))
    rw [hnew.1, hnew.2]
    exact .fires (by simp) hmem hk
  | some b =>
    rcases hold b rfl with hb | hb
    · have hstate : b.state ≠ .inactive := by simp [hb.state]
      rw [joined, if_pos hstate]
      obtain ⟨hvisit, hitem⟩ := visit_of_not_pending rule xxhash ts (a := { b with
          value := (rule.newAlert templates ts smpl).value
          annotations := (rule.newAlert templates ts smpl).annotations
          receivers := rule.preferredChannels }) (by simp [hb.state])
      rw [hvisit, hitem]
      exact .keeps _ hb
    · have hstate : ¬ b.state ≠ .inactive := not_not.mpr hb.state
      rw [joined, if_neg hstate, hnew.1, hnew.2]
      refine .fires (fun b' hb' => ?_) hmem hk
      obtain rfl := Option.some.inj hb'
      exact hb

theorem evolves_absent (hb : b.Fires ∨ b.Resolved) :
    Evolves xxhash rule templates ts samples k (some b) false (rule.visit ts false b)
      (rule.visitItem xxhash ts false b) := by
  rcases hb with hb | hb
  · obtain ⟨hvisit, hitem⟩ := visit_fires rule xxhash ts hb
    rw [hvisit, hitem]
    exact .resolves hb
  · obtain ⟨hvisit, hitem⟩ := visit_resolved rule xxhash ts hb
    rw [hvisit, hitem]
    split
    · exact .leaves hb
    · rename_i hrecent
      exact .rests hb (not_lt.mp hrecent)

end Visit

/-- The alerts of a rule whose alerts fire or are resolved evolve. -/
theorem evolves_merged {xxhash : List UInt8 → UInt64} {rule : ThresholdRule} {templates : Templates F}
    {ts : Go.Time} {samples : List (Sample F)} {active alerts : Go.Table UInt64 (Alert F)}
    (hhold : rule.holdDuration = 0)
    (halerts : rule.resultAlerts xxhash templates ts samples = .ok alerts)
    (hactive : ∀ k, ∀ b ∈ active.lookup k, b.Fires ∨ b.Resolved) (k : UInt64) :
    Evolves xxhash rule templates ts samples k (active.lookup k) (alerts.lookup k).isSome
      ((rule.merged active alerts k).bind (rule.visit ts (alerts.lookup k).isSome))
      (rule.mergedItem xxhash ts active alerts k) := by
  rw [mergedItem, merged]
  cases hk : alerts.lookup k with
  | some a =>
    obtain ⟨smpl, hmem, hhash, rfl⟩ := (lookup_resultAlerts halerts).mp hk
    exact evolves_joined hhold hmem hhash (hactive k)
  | none =>
    cases hold : active.lookup k with
    | none => exact .absent
    | some b => exact evolves_absent (hactive k b hold)

/-! ### Sending -/

section Sending

variable {range : Go.Table.RangeOrder UInt64 (Alert F)} {ts : Go.Time} {resendDelay interval : Go.Duration}
variable {active : Go.Table UInt64 (Alert F)} {k : UInt64}

/-- An alert in memory after the alerts have been sent. -/
def afterSend (ts : Go.Time) (resendDelay interval : Go.Duration) (a : Alert F) : Alert F :=
  if a.needsSending ts resendDelay then markSent ts resendDelay interval a else a

theorem lookup_sendAlerts : (sendAlerts range ts resendDelay interval active).2.lookup k =
    (active.lookup k).map (afterSend ts resendDelay interval) := by
  show ((range.visited active).sweep _).lookup k = _
  rw [Go.Table.lookup_sweep, Go.Table.RangeOrder.lookup_visited]
  cases active.lookup k with
  | none => rfl
  | some a => exact (apply_ite some _ _ _).symm

theorem mem_sendAlerts {a : Alert F} (h : active.lookup k = some a)
    (hsend : a.needsSending ts resendDelay) :
    afterSend ts resendDelay interval a ∈ (sendAlerts range ts resendDelay interval active).1 := by
  rw [afterSend, if_pos hsend]
  refine List.mem_map.mpr ⟨(k, a), List.mem_filter.mpr ⟨?_, hsend⟩, rfl⟩
  exact Go.Table.RangeOrder.mem_visited.mpr (Go.Table.lookup_eq_some.mp h)

/-- Sending only changes when an alert was sent, and how long it is valid. -/
theorem afterSend_eq (ts : Go.Time) (resendDelay interval : Go.Duration) (a : Alert F) :
    ∃ sentAt validUntil,
    afterSend ts resendDelay interval a = { a with lastSentAt := sentAt, validUntil := validUntil } ∧
      (sentAt = ts ∨ sentAt = a.lastSentAt) := by
  rw [afterSend]
  split
  · exact ⟨ts, _, rfl, .inl rfl⟩
  · exact ⟨a.lastSentAt, a.validUntil, rfl, .inr rfl⟩

@[simp] theorem afterSend_state (a : Alert F) :
    (afterSend ts resendDelay interval a).state = a.state := by
  obtain ⟨_, _, heq, -⟩ := afterSend_eq ts resendDelay interval a
  rw [heq]

@[simp] theorem afterSend_labels (a : Alert F) :
    (afterSend ts resendDelay interval a).labels = a.labels := by
  obtain ⟨_, _, heq, -⟩ := afterSend_eq ts resendDelay interval a
  rw [heq]

@[simp] theorem afterSend_firedAt (a : Alert F) :
    (afterSend ts resendDelay interval a).firedAt = a.firedAt := by
  obtain ⟨_, _, heq, -⟩ := afterSend_eq ts resendDelay interval a
  rw [heq]

@[simp] theorem afterSend_resolvedAt (a : Alert F) :
    (afterSend ts resendDelay interval a).resolvedAt = a.resolvedAt := by
  obtain ⟨_, _, heq, -⟩ := afterSend_eq ts resendDelay interval a
  rw [heq]

theorem lastSentAt_afterSend (a : Alert F) (h : a.lastSentAt.nanos ≤ ts.nanos) :
    (afterSend ts resendDelay interval a).lastSentAt.nanos ≤ ts.nanos := by
  obtain ⟨sentAt, _, heq, rfl | rfl⟩ :=
    afterSend_eq ts resendDelay interval a
  · rw [heq]
  · rw [heq]
    exact h

end Sending

end ThresholdRule

/-! ### Rounds -/

/-- A round of the task: what `Eval` and then `SendAlerts` are given. -/
structure Round (F : Type) where
  unixNano : Int64
  res : Except EvalError (List (Sample F))
  store : HistoryStore F
  evalRange : Go.Table.RangeOrder UInt64 (Alert F)
  sendRange : Go.Table.RangeOrder UInt64 (Alert F)

def Round.ts (r : Round F) : Go.Time := Go.Time.unix r.unixNano

/-- The rule between two rounds, with the times of the last round and of the last evaluation that
succeeded, and the hashes of the result of that evaluation. -/
structure Watched (F : Type) where
  rule : RuleState F
  clock : Go.Time
  evaluated : Go.Time
  result : List UInt64

def Watched.init : Watched F := ⟨RuleState.init, Go.Time.zero, Go.Time.zero, []⟩

/-- The rule and how often it is evaluated, with what its evaluation depends on. -/
structure RuleTask (F : Type) where
  rule : ThresholdRule
  /-- As `NewBaseRule` leaves it. -/
  holdDuration : rule.holdDuration = 0
  xxhash : List UInt8 → UInt64
  templates : Templates F
  resendDelay : Go.Duration
  frequency : Go.Duration

namespace RuleTask

variable (task : RuleTask F)

/-- The hashes of the alerts for the result of a query. -/
def hashes (r : Round F) : List UInt64 :=
  match r.res with
  | .ok samples => samples.map (task.rule.sampleHash task.xxhash task.templates r.ts)
  | .error _ => []

/-- `RuleTask.Eval`: the alerts that the notifier is handed, and the rule after the round. -/
def round (w : Watched F) (r : Round F) : List (Alert F) × Watched F :=
  match task.rule.eval task.xxhash task.templates r.evalRange r.store r.ts r.res w.rule with
  | .error _ => ([], { w with clock := r.ts })
  | .ok (s, _) =>
    let (sent, active) :=
      ThresholdRule.sendAlerts r.sendRange r.ts task.resendDelay task.frequency s.active
    (sent, ⟨{ s with active := active }, r.ts, r.ts, task.hashes r⟩)

/-- A round is not earlier than the one before. -/
def Step (w : Watched F) (r : Round F) (w' : Watched F) : Prop :=
  w.clock.nanos ≤ r.ts.nanos ∧ w' = (task.round w r).2

/-- **What holds of the alerts in memory** between two rounds. -/
structure Sound (w : Watched F) : Prop where
  /-- An alert is found under the hash of its labels. -/
  keyed : ∀ k a, w.rule.active.lookup k = some a → Labels.hash task.xxhash a.labels = k
  present : ∀ k a, w.rule.active.lookup k = some a → k ∈ w.result → a.Fires
  absent : ∀ k a, w.rule.active.lookup k = some a → k ∉ w.result → a.Resolved
  /-- Every alert of the last result is there. -/
  listed : ∀ k ∈ w.result, (w.rule.active.lookup k).isSome
  /-- No alert that was resolved too long ago has survived the last evaluation. -/
  retained : ∀ k a, w.rule.active.lookup k = some a → a.state = .inactive →
    w.evaluated.sub a.resolvedAt ≤ resolvedRetention
  /-- Nothing was sent after the last evaluation. -/
  sent : ∀ k a, w.rule.active.lookup k = some a → a.lastSentAt.nanos ≤ w.evaluated.nanos
  evaluated : w.evaluated.nanos ≤ w.clock.nanos

/-- **What the notifier is handed** at a round. -/
structure Delivers (w : Watched F) (r : Round F) : Prop where
  /-- An alert that did not fire before and fires now. -/
  fired : ∀ k a, (task.round w r).2.rule.active.lookup k = some a → a.state = .firing →
    (∀ b, w.rule.active.lookup k = some b → b.state ≠ .firing) → a ∈ (task.round w r).1
  /-- An alert that fired before and does not now, if the round is later than the evaluation before
  it. -/
  resolved : w.evaluated.nanos < r.ts.nanos → ∀ k a b,
    w.rule.active.lookup k = some b → b.state = .firing →
    (task.round w r).2.rule.active.lookup k = some a → a.state ≠ .firing →
    a ∈ (task.round w r).1 ∧ a.state = .inactive ∧ a.resolvedAt = r.ts
  /-- An alert that fired before is not removed. -/
  kept : ∀ k b, w.rule.active.lookup k = some b → b.state = .firing →
    ((task.round w r).2.rule.active.lookup k).isSome

variable {task : RuleTask F} {w : Watched F} {r : Round F}

theorem sound_init : task.Sound Watched.init where
  keyed _ _ h := by cases h
  present _ _ h := by cases h
  absent _ _ h := by cases h
  listed _ h := by cases h
  retained _ _ h := by cases h
  sent _ _ h := by cases h
  evaluated := le_refl _

theorem Sound.fires_or_resolved (h : task.Sound w) (k : UInt64) :
    ∀ b ∈ w.rule.active.lookup k, b.Fires ∨ b.Resolved := by
  intro b hb
  by_cases hk : k ∈ w.result
  · exact .inl (h.present k b hb hk)
  · exact .inr (h.absent k b hb hk)

/-- A round either changes the clock only, or the alert of each hash evolves and is sent if it needs
to be. -/
theorem round_cases (h : task.Sound w) (r : Round F) :
    task.round w r = ([], { w with clock := r.ts }) ∨
    ∃ sent s, task.round w r = (sent, ⟨s, r.ts, r.ts, task.hashes r⟩) ∧ ∀ k, ∃ new,
      (∃ samples item, Evolves task.xxhash task.rule task.templates r.ts samples k
        (w.rule.active.lookup k) (decide (k ∈ task.hashes r)) new item) ∧
      s.active.lookup k =
        new.map (ThresholdRule.afterSend r.ts task.resendDelay task.frequency) ∧
      ∀ a ∈ new, a.needsSending r.ts task.resendDelay →
        ThresholdRule.afterSend r.ts task.resendDelay task.frequency a ∈ sent := by
  rw [round]
  cases heval : task.rule.eval task.xxhash task.templates r.evalRange r.store r.ts r.res w.rule with
  | error err => exact .inl rfl
  | ok out =>
    obtain ⟨s, written⟩ := out
    obtain ⟨samples, alerts, -, hres, halerts, hlookup, -⟩ := ThresholdRule.eval_ok heval
    have hin : ∀ k, decide (k ∈ task.hashes r) = (alerts.lookup k).isSome := by
      intro k
      rw [Bool.eq_iff_iff, decide_eq_true_iff, ThresholdRule.isSome_resultAlerts halerts, hashes, hres]
    refine .inr ⟨_, _, rfl, fun k => ⟨s.active.lookup k, ⟨samples,
      task.rule.mergedItem task.xxhash r.ts w.rule.active alerts k, ?_⟩, ?_, ?_⟩⟩
    · rw [hin, hlookup]
      exact ThresholdRule.evolves_merged task.holdDuration halerts (fun k => h.fires_or_resolved k) k
    · exact ThresholdRule.lookup_sendAlerts
    · exact fun a ha => ThresholdRule.mem_sendAlerts ha

/-- What the invariant says of the alert of one hash. -/
structure SoundAt (task : RuleTask F) (ts : Go.Time) (k : UInt64) (inResult : Bool)
    (o : Option (Alert F)) : Prop where
  keyed : ∀ a ∈ o, Labels.hash task.xxhash a.labels = k
  present : inResult → ∃ a ∈ o, a.Fires
  absent : inResult = false → ∀ a ∈ o, a.Resolved ∧ ts.sub a.resolvedAt ≤ resolvedRetention
  sent : ∀ a ∈ o, a.lastSentAt.nanos ≤ ts.nanos

/-- One evaluation keeps the invariant of a hash. -/
theorem soundAt_of_evolves {samples : List (Sample F)} {k : UInt64} {inResult : Bool}
    {old new : Option (Alert F)} {item : Option (RuleStateHistory F)}
    (h : Evolves task.xxhash task.rule task.templates r.ts samples k old inResult new item)
    (hkeyed : ∀ b ∈ old, Labels.hash task.xxhash b.labels = k)
    (hsent : ∀ b ∈ old, b.lastSentAt.nanos ≤ r.ts.nanos) : SoundAt task r.ts k inResult new := by
  have hzero : r.ts.isZero = false := Go.Time.isZero_unix r.unixNano
  cases h with
  | absent => exact ⟨by simp, by simp, by simp, by simp⟩
  | @keeps b a hb =>
    refine ⟨?_, fun _ => ⟨_, rfl, hb.state, hb.firedAt, hb.resolvedAt⟩, by simp, ?_⟩
    · rintro _ ⟨⟩
      exact hkeyed b rfl
    · rintro _ ⟨⟩
      exact hsent b rfl
  | fires hold hmem hk =>
    refine ⟨?_, fun _ => ⟨_, rfl, rfl, hzero, rfl⟩, by simp, ?_⟩
    · rintro _ ⟨⟩
      exact hk
    · rintro _ ⟨⟩
      exact (Go.Time.duration_lt_unix 0 r.unixNano).le
  | @resolves b hb =>
    refine ⟨?_, by simp, ?_, ?_⟩
    · rintro _ ⟨⟩
      exact hkeyed b rfl
    · rintro - _ ⟨⟩
      refine ⟨⟨rfl, hzero⟩, ?_⟩
      show r.ts.sub r.ts ≤ resolvedRetention
      rw [Go.Time.sub_self]
      decide
    · rintro _ ⟨⟩
      exact hsent b rfl
  | @rests b hb hrecent =>
    refine ⟨hkeyed, by simp, ?_, hsent⟩
    rintro - _ ⟨⟩
    exact ⟨hb, hrecent⟩
  | leaves hb => exact ⟨by simp, by simp, by simp, by simp⟩

/-- Sending keeps the invariant of a hash. -/
theorem SoundAt.afterSend {ts : Go.Time} {k : UInt64} {inResult : Bool} {o : Option (Alert F)}
    (h : SoundAt task ts k inResult o) :
    SoundAt task ts k inResult
      (o.map (ThresholdRule.afterSend ts task.resendDelay task.frequency)) := by
  refine ⟨?_, fun hin => ?_, fun hin => ?_, ?_⟩
  · intro a ha
    obtain ⟨b, hb, rfl⟩ := Option.map_eq_some_iff.mp ha
    simpa using h.keyed b hb
  · obtain ⟨b, hb, hfires⟩ := h.present hin
    refine ⟨_, Option.map_eq_some_iff.mpr ⟨b, hb, rfl⟩, ?_, ?_, ?_⟩
    · simpa using hfires.state
    · simpa using hfires.firedAt
    · simpa using hfires.resolvedAt
  · intro a ha
    obtain ⟨b, hb, rfl⟩ := Option.map_eq_some_iff.mp ha
    obtain ⟨hresolved, hrecent⟩ := h.absent hin b hb
    refine ⟨⟨?_, ?_⟩, ?_⟩
    · simpa using hresolved.state
    · simpa using hresolved.resolvedAt
    · simpa using hrecent
  · intro a ha
    obtain ⟨b, hb, rfl⟩ := Option.map_eq_some_iff.mp ha
    exact ThresholdRule.lastSentAt_afterSend b (h.sent b hb)

/-- A round keeps the invariant. -/
theorem sound_round (h : task.Sound w)
    (hclock : w.clock.nanos ≤ r.ts.nanos) : task.Sound (task.round w r).2 := by
  rcases round_cases h r with hfail | ⟨sent, s, hround, hnew⟩
  · rw [hfail]
    exact ⟨h.keyed, h.present, h.absent, h.listed, h.retained, h.sent, h.evaluated.trans hclock⟩
  · rw [hround]
    have hafter : ∀ k, SoundAt task r.ts k (decide (k ∈ task.hashes r)) (s.active.lookup k) := by
      intro k
      obtain ⟨new, ⟨samples, item, hevolves⟩, hlookup, -⟩ := hnew k
      rw [hlookup]
      refine (soundAt_of_evolves hevolves (h.keyed k) fun b hb => ?_).afterSend
      exact (h.sent k b hb).trans (h.evaluated.trans hclock)
    refine ⟨fun k => (hafter k).keyed, fun k a ha hk => ?_, fun k a ha hk => ?_, fun k hk => ?_,
      fun k a ha hinactive => ?_, fun k => (hafter k).sent, le_refl _⟩
    · obtain ⟨a', ha', hfires⟩ := (hafter k).present (decide_eq_true hk)
      obtain rfl : a' = a := Option.some.inj (ha'.symm.trans ha)
      exact hfires
    · exact ((hafter k).absent (decide_eq_false hk) a ha).1
    · obtain ⟨a, ha, -⟩ := (hafter k).present (decide_eq_true hk)
      exact Option.isSome_of_mem ha
    · -- an alert that the result has fires
      have hk : k ∉ task.hashes r := by
        intro hk
        obtain ⟨a', ha', hfires⟩ := (hafter k).present (decide_eq_true hk)
        obtain rfl : a' = a := Option.some.inj (ha'.symm.trans ha)
        simp [hfires.state] at hinactive
      exact ((hafter k).absent (decide_eq_false hk) a ha).2

/-- An alert that begins to fire has never been sent. -/
theorem needsSending_of_fired {samples : List (Sample F)} {k : UInt64} {inResult : Bool}
    {old : Option (Alert F)} {a : Alert F} {item : Option (RuleStateHistory F)}
    {resendDelay : Go.Duration}
    (h : Evolves task.xxhash task.rule task.templates r.ts samples k old inResult (some a) item)
    (hfires : a.state = .firing) (hold : ∀ b ∈ old, b.state ≠ .firing) :
    a.needsSending r.ts resendDelay := by
  cases h with
  | keeps a hb => exact absurd hb.state (hold _ rfl)
  | fires hold hmem hk =>
    have hlate : ((Go.Time.zero).add resendDelay).before r.ts = true := by
      have hlt := Go.Time.duration_lt_unix resendDelay r.unixNano
      refine decide_eq_true ?_
      show 0 + resendDelay.toInt < r.ts.nanos
      rw [zero_add]
      exact hlt
    rw [Alert.needsSending, if_neg AlertState.noConfusion]
    split
    · rfl
    · exact hlate
  | resolves hb => cases hfires
  | rests hb _ => simp [hb.state] at hfires

/-- An alert that ceases to fire is resolved now, which is after it was sent. -/
theorem needsSending_of_resolved {samples : List (Sample F)} {k : UInt64} {inResult : Bool}
    {a b : Alert F} {item : Option (RuleStateHistory F)} {resendDelay : Go.Duration}
    (h : Evolves task.xxhash task.rule task.templates r.ts samples k (some b) inResult (some a) item)
    (hb : b.state = .firing) (ha : a.state ≠ .firing) (hsent : b.lastSentAt.nanos < r.ts.nanos) :
    a.needsSending r.ts resendDelay ∧ a.state = .inactive ∧ a.resolvedAt = r.ts := by
  cases h with
  | keeps a hfires => exact absurd hfires.state ha
  | fires hold hmem hk => exact absurd rfl ha
  | resolves hfires =>
    refine ⟨?_, rfl, rfl⟩
    rw [Alert.needsSending, if_neg AlertState.noConfusion]
    exact if_pos (decide_eq_true hsent)
  | rests hresolved _ => exact absurd hb (by simp [hresolved.state])

theorem isSome_of_evolves {samples : List (Sample F)} {k : UInt64} {inResult : Bool} {b : Alert F}
    {new : Option (Alert F)} {item : Option (RuleStateHistory F)}
    (h : Evolves task.xxhash task.rule task.templates r.ts samples k (some b) inResult new item)
    (hb : b.state = .firing) : new.isSome := by
  cases h with
  | keeps | fires | resolves | rests => rfl
  | leaves hresolved => simp [hresolved.state] at hb

/-- What the notifier is handed at a round, from the invariant before it. -/
theorem delivers_round (h : task.Sound w) (r : Round F) :
    task.Delivers w r := by
  rcases round_cases h r with hfail | ⟨sent, s, hround, hnew⟩
  · -- the clock is all that changes
    refine ⟨fun k a ha hfires hbefore => ?_, fun _ k a b hb hfires ha hnot => ?_,
      fun k b hb _ => ?_⟩
    · rw [hfail] at ha
      exact absurd hfires (hbefore a ha)
    · rw [hfail] at ha
      obtain rfl : a = b := Option.some.inj (ha.symm.trans hb)
      exact absurd hfires hnot
    · rw [hfail]
      exact Option.isSome_of_mem hb
  · refine ⟨fun k a ha hfires hbefore => ?_, fun hlater k a b hb hfires ha hnot => ?_,
      fun k b hb hfires => ?_⟩
    · rw [hround] at ha ⊢
      obtain ⟨new, ⟨samples, item, hevolves⟩, hlookup, hsend⟩ := hnew k
      obtain ⟨a', rfl, rfl⟩ := Option.map_eq_some_iff.mp (hlookup.symm.trans ha)
      rw [ThresholdRule.afterSend_state] at hfires
      exact hsend a' rfl (needsSending_of_fired hevolves hfires hbefore)
    · rw [hround] at ha ⊢
      obtain ⟨new, ⟨samples, item, hevolves⟩, hlookup, hsend⟩ := hnew k
      obtain ⟨a', rfl, rfl⟩ := Option.map_eq_some_iff.mp (hlookup.symm.trans ha)
      rw [ThresholdRule.afterSend_state] at hnot
      rw [hb] at hevolves
      have hsentBefore : b.lastSentAt.nanos < r.ts.nanos := (h.sent k b hb).trans_lt hlater
      obtain ⟨hneeds, hstate, hat⟩ := needsSending_of_resolved hevolves hfires hnot hsentBefore
      refine ⟨hsend a' rfl hneeds, ?_, ?_⟩
      · rw [ThresholdRule.afterSend_state, hstate]
      · rw [ThresholdRule.afterSend_resolvedAt, hat]
    · rw [hround]
      obtain ⟨new, ⟨samples, item, hevolves⟩, hlookup, -⟩ := hnew k
      rw [hb] at hevolves
      show (s.active.lookup k).isSome
      rw [hlookup, Option.isSome_map]
      exact isSome_of_evolves hevolves hfires

/-- **Every run of a threshold rule**, from its construction on. -/
theorem sound_and_delivers (task : RuleTask F) {rounds : List (Round F)} {w : Watched F}
    (h : Run task.Step Watched.init rounds w) : task.Sound w ∧ ∀ r, task.Delivers w r := by
  have hsound : task.Sound w := by
    refine h.invariant sound_init fun w r w' hw hstep => ?_
    obtain ⟨hclock, rfl⟩ := hstep
    exact sound_round hw hclock
  exact ⟨hsound, delivers_round hsound⟩

/-! ### A rule whose alerts have one hash -/

/-- A rule without labels of its own. -/
def plainTask : RuleTask Int where
  rule := ThresholdRule.new "1" "high load" "" [] [] []
  holdDuration := rfl
  xxhash _ := 0
  templates := ⟨toString, "0", fun _ _ _ _ text => text, fun _ _ => none⟩
  resendDelay := 60000000000
  frequency := 60000000000

/-- A round, with the alerts in the order in which they are held. -/
def roundAt (unixNano : Int64) (samples : List (Sample Int)) : Round Int where
  unixNano := unixNano
  res := .ok samples
  store := ⟨some [], true, Go.Time.unix unixNano⟩
  evalRange := Go.Table.RangeOrder.inOrder
  sendRange := Go.Table.RangeOrder.inOrder

theorem sound_and_delivers_plain :
    plainTask.Sound (plainTask.round Watched.init (roundAt 0 [⟨[], 5, false⟩])).2 ∧
      ∀ r, plainTask.Delivers (plainTask.round Watched.init (roundAt 0 [⟨[], 5, false⟩])).2 r :=
  sound_and_delivers plainTask (.snoc .nil ⟨by decide, rfl⟩)

/-- The alert of the first round is gone at the second, which is at the same time: it is resolved when it
was sent, so it is not sent again. -/
theorem not_delivered_at_once : ¬ ∀ rounds w r, Run plainTask.Step Watched.init rounds w →
    w.clock.nanos ≤ r.ts.nanos → ∀ k a b, w.rule.active.lookup k = some b → b.state = .firing →
      (plainTask.round w r).2.rule.active.lookup k = some a → a.state ≠ .firing →
      a ∈ (plainTask.round w r).1 := by
  intro h
  have hdelivered := h [roundAt 0 [⟨[], 5, false⟩]] _ (roundAt 0 []) (.snoc .nil ⟨by decide, rfl⟩)
    (by decide) 0 _ _ rfl (by decide) rfl (by decide)
  have hnothing : (plainTask.round (plainTask.round Watched.init (roundAt 0 [⟨[], 5, false⟩])).2
      (roundAt 0 [])).1 = [] := by decide
  rw [hnothing] at hdelivered
  cases hdelivered

end RuleTask

end QueryService.Rules
