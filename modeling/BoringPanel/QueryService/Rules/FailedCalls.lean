import BoringPanel.QueryService.Rules.FaithfulPatch
import BoringPanel.QueryService.Rules.StoredRules

/-!
# Calls that return an error

When a call of the manager returns an error, the stored rules, the tasks and the rules are as before in
the cases of `Call.Undone`, and in no other one (`failed_unchanged_iff`).
-/

namespace QueryService.Rules

/-! ### One task and its rule -/

namespace Manager

variable {O O' : Type} (m : Manager O) (n : String)

/-- The task of a name and its rule are set. -/
def set (task rule : Option O) : Manager O where
  tasks := Function.update m.tasks n task
  rules := Function.update m.rules (ruleIdFromTaskName n) rule

@[simp] theorem set_set (t r t' r' : Option O) : (m.set n t r).set n t' r' = m.set n t' r' := by
  simp only [set, Function.update_idem]

@[simp] theorem tasks_set (t r : Option O) : (m.set n t r).tasks n = t := Function.update_self _ _ _

@[simp] theorem rules_set (t r : Option O) : (m.set n t r).rules (ruleIdFromTaskName n) = r :=
  Function.update_self _ _ _

theorem set_eq_self_iff {t r : Option O} :
    m.set n t r = m ↔ t = m.tasks n ∧ r = m.rules (ruleIdFromTaskName n) := by
  cases m
  simp only [set, Manager.mk.injEq, Function.update_eq_self_iff]

theorem set_self : m.set n (m.tasks n) (m.rules (ruleIdFromTaskName n)) = m :=
  (m.set_eq_self_iff n).mpr ⟨rfl, rfl⟩

theorem map_set (f : O → O') (t r : Option O) :
    (m.set n t r).map f = (m.map f).set n (t.map f) (r.map f) := by
  simp only [set, Manager.map, Manager.mk.injEq]
  constructor
  · funext k
    simp only [Function.update_apply]
    split <;> rfl
  · funext k
    simp only [Function.update_apply]
    split <;> rfl

theorem deleteTask_eq : m.deleteTask n =
    m.set n none (if (m.tasks n).isSome then none else m.rules (ruleIdFromTaskName n)) := by
  rw [deleteTask]
  cases h : m.tasks n with
  | none =>
    have hself := m.set_self n
    rw [h] at hself
    simpa using hself.symm
  | some r => rfl

end Manager

/-! ### Rules that replace others -/

section Replacing

variable {F A : Type} (noAlerts : A)

/-- A rule that replaces another one, and may take its alerts over. -/
def EvaluatedRule.replacing (old : Option (EvaluatedRule F A)) (runs : RunningRule F) :
    EvaluatedRule F A where
  runs := runs
  alerts :=
    match old with
    | some old => if old.runs.key.copies runs.key then old.alerts else noAlerts
    | none => noAlerts

/-- The task of the patched rule. -/
def patchedTask [Neg F] (y : PostableRule F) (task : Option (EvaluatedRule F A)) :
    Option (EvaluatedRule F A) :=
  if y.disabled then none else some (EvaluatedRule.replacing noAlerts task y.running)

/-- The task of the stored rule, of which `left` is what the patch has left, after a write that failed. -/
def rolledBackTask [Neg F] (stored left y : PostableRule F) (task : Option (EvaluatedRule F A)) :
    Option (EvaluatedRule F A) :=
  if stored.disabled then none
  else if left.taskError.isNone then
    some (EvaluatedRule.replacing noAlerts (patchedTask noAlerts y task) left.running)
  else patchedTask noAlerts y task

theorem HeldRule.key_resolve (m : Memory F) (r : HeldRule F A) : (r.resolve m).runs.key = r.key := by
  cases r with
  | before rule => rfl
  | made task alerts => rfl

theorem HeldRule.alerts_resolve (m : Memory F) (r : HeldRule F A) :
    (r.resolve m).alerts = r.alerts := by
  cases r with
  | before rule => rfl
  | made task alerts => rfl

/-- A rule that a call makes replaces the one that is held. -/
theorem resolve_copied (m : Memory F) (old : Option (HeldRule F A)) (task : Task) :
    (Manager.copied HeldRule.copyState old (.made task noAlerts)).resolve m =
      EvaluatedRule.replacing noAlerts (old.map (HeldRule.resolve m)) (m.running task) := by
  cases old with
  | none => rfl
  | some old =>
    simp only [EvaluatedRule.replacing, Option.map_some, HeldRule.key_resolve,
      HeldRule.alerts_resolve]
    rfl

/-- Only the keys and the alerts matter of a rule that is replaced. -/
theorem replacing_congr {old old' : Option (EvaluatedRule F A)} (runs : RunningRule F)
    (h : old.map (fun r => (r.runs.key, r.alerts)) = old'.map fun r => (r.runs.key, r.alerts)) :
    EvaluatedRule.replacing noAlerts old runs = EvaluatedRule.replacing noAlerts old' runs := by
  cases old with
  | none =>
    cases old' with
    | none => rfl
    | some old' => cases h
  | some old =>
    cases old' with
    | none => cases h
    | some old' =>
      obtain ⟨hkey, halerts⟩ := Prod.mk.inj (Option.some.inj h)
      simp only [EvaluatedRule.replacing, hkey, halerts]

end Replacing

/-! ### The sync -/

section Sync

variable {F A : Type} [Neg F] (noAlerts : A) (mgr : Manager (HeldRule F A)) {m : Memory F}
variable (n : String) {v : Var}

theorem syncTask_disabled (h : (m.rule v).disabled = true) :
    mgr.syncRuleStateWithTask noAlerts m n v = (m, mgr.set n none
      (if (mgr.tasks n).isSome then none else mgr.rules (ruleIdFromTaskName n)), .ok ()) := by
  have hdelete : (if (mgr.tasks n).isSome then mgr.deleteTask n else mgr) = mgr.deleteTask n := by
    rw [Manager.deleteTask]
    split <;> rfl
  have hfields : (m.fields v).disabled = true := h
  rw [Manager.syncRuleStateWithTask, if_pos hfields, hdelete, Manager.deleteTask_eq]

theorem prepareHeldRule_ok (h : (m.rule v).taskError = none) :
    prepareHeldRule noAlerts m v = (m.constructed v, .ok (.made (m.task v) noAlerts)) := by
  rw [prepareHeldRule, prepareTaskFunc_ok h]
  rfl

theorem prepareHeldRule_error {err : TaskError} (h : (m.rule v).taskError = some err) :
    prepareHeldRule noAlerts m v = ((prepareTaskFunc m v).1, .error err) := by
  obtain ⟨m', hm', -⟩ := prepareTaskFunc_error h
  rw [prepareHeldRule, hm']
  rfl

/-- The rule of a task that can be made takes the place of the one that is there. -/
theorem syncTask_enabled (h : (m.rule v).disabled = false) (htask : (m.rule v).taskError = none) :
    mgr.syncRuleStateWithTask noAlerts m n v = (m.constructed v, mgr.set n
      (some (Manager.copied HeldRule.copyState (mgr.tasks n) (.made (m.task v) noAlerts)))
      (some (Manager.copied HeldRule.copyState (mgr.tasks n) (.made (m.task v) noAlerts))), .ok ()) := by
  have hfields : ¬ (m.fields v).disabled = true := by
    rw [show (m.fields v).disabled = false from h]
    decide
  rw [Manager.syncRuleStateWithTask, if_neg hfields, prepareHeldRule_ok noAlerts htask]
  cases hold : mgr.tasks n with
  | none =>
    simp only [Option.isNone_none, if_true, Manager.addTask_absent hold]
    rfl
  | some old =>
    simp only [Option.isNone_some, Bool.false_eq_true, if_false, Manager.editTask, hold]
    rfl

/-- No task can be made: nothing is replaced. -/
theorem syncTask_failed {err : TaskError} (h : (m.rule v).disabled = false)
    (htask : (m.rule v).taskError = some err) :
    ∃ err', mgr.syncRuleStateWithTask noAlerts m n v =
      ((prepareTaskFunc m v).1, mgr, .error err') := by
  have hfields : ¬ (m.fields v).disabled = true := by
    rw [show (m.fields v).disabled = false from h]
    decide
  rw [Manager.syncRuleStateWithTask, if_neg hfields, prepareHeldRule_error noAlerts htask]
  cases hold : mgr.tasks n with
  | none =>
    cases err with
    | panic => exact ⟨_, rfl⟩
    | error message => exact ⟨_, rfl⟩
  | some old =>
    cases err with
    | panic => exact ⟨_, rfl⟩
    | error message => exact ⟨_, rfl⟩

/-- The task that a sync leaves in the memory of a call, where one can be made or none is needed. -/
def syncedTask (task : Option (HeldRule F A)) (m : Memory F) (v : Var) : Option (HeldRule F A) :=
  if (m.rule v).disabled then none
  else some (Manager.copied HeldRule.copyState task (.made (m.task v) noAlerts))

/-- The rule is that of the task, but stays where there was no task and is none. -/
def syncedRule (old new rule : Option (HeldRule F A)) : Option (HeldRule F A) :=
  if new.isNone ∧ old.isNone then rule else new

theorem syncedRule_syncedRule (old first second rule : Option (HeldRule F A)) :
    syncedRule first second (syncedRule old first rule) =
      if first.isNone ∧ old.isNone ∧ second.isNone then rule else second := by
  cases old <;> cases first <;> cases second <;> rfl

theorem syncedRule_eq (old first rule : Option (HeldRule F A)) :
    syncedRule old first rule = if first.isNone ∧ old.isNone ∧ first.isNone then rule else first := by
  cases old <;> cases first <;> rfl

theorem syncTask_ok (h : (m.rule v).disabled = false → (m.rule v).taskError = none) :
    mgr.syncRuleStateWithTask noAlerts m n v =
      (if (m.rule v).disabled then m else m.constructed v,
        mgr.set n (syncedTask noAlerts (mgr.tasks n) m v)
          (syncedRule (mgr.tasks n) (syncedTask noAlerts (mgr.tasks n) m v)
            (mgr.rules (ruleIdFromTaskName n))), .ok ()) := by
  cases hdisabled : (m.rule v).disabled with
  | true =>
    rw [syncTask_disabled noAlerts mgr n hdisabled, syncedTask, if_pos hdisabled, syncedRule]
    cases mgr.tasks n with
    | none => rfl
    | some old => rfl
  | false =>
    have hsynced : syncedTask noAlerts (mgr.tasks n) m v =
        some (Manager.copied HeldRule.copyState (mgr.tasks n) (.made (m.task v) noAlerts)) := by
      rw [syncedTask, hdisabled]
      rfl
    rw [syncTask_enabled noAlerts mgr n hdisabled (h hdisabled), hsynced]
    rfl

theorem baseRuleError_of_constructorError {ruleType : String} {c : Option (RuleCondition F)}
    (h : constructorError ruleType c = none) : baseRuleError c = none := by
  rw [constructorError] at h
  split at h
  · exact h
  · split at h
    · exact (Option.or_eq_none_iff.mp h).1
    · split at h
      · split at h
        · cases h
        · exact h
      · cases h

/-- A constructor that fails for another reason than the condition leaves the memory. -/
theorem prepareTaskFunc_fst_of_error {err : TaskError} (h : (m.rule v).taskError = some err)
    (hbase : baseRuleError (m.ruleCondition.get v) = none) : (prepareTaskFunc m v).1 = m := by
  have hget : (m.rule v).ruleCondition = m.ruleCondition.get v := rfl
  have htype : (m.rule v).ruleType = (m.fields v).ruleType := rfl
  rw [PostableRule.taskError, htype, hget, constructorError] at h
  rw [prepareTaskFunc]
  by_cases hthreshold : (m.fields v).ruleType = ruleTypeThreshold
  · rw [if_pos hthreshold]
  rw [if_neg hthreshold] at h ⊢
  by_cases hprom : (m.fields v).ruleType = ruleTypeProm
  · rw [if_pos hprom]
  rw [if_neg hprom] at h ⊢
  by_cases hanomaly : (m.fields v).ruleType = ruleTypeAnomaly
  · -- the only other error is that there is no target to negate
    rw [if_pos hanomaly] at h ⊢
    split at h
    · rename_i hall
      rw [newAnomalyRule]
      cases hc : m.ruleCondition.get v with
      | none => rfl
      | some c =>
        rw [hc, Option.all_some] at hall
        have hnegates : c.compareOp = valueIsBelow ∧ c.target.isNone := of_decide_eq_true hall
        simp only [if_pos hnegates.1, if_pos hnegates.2]
    · rw [hbase] at h
      cases h
  · rw [if_neg hanomaly]

end Sync

/-! ### The calls -/

section Calls

variable {F A : Type} [Neg F] (noAlerts : A) (disableRules : Bool)
variable (parseTest : String → String → Option String) (s : ManagerState F A)

/-- **The errors after which everything is as before.** -/
def Call.Undone : Call F → Prop
  | .create ruleStr lastInsertId _ =>
    -- no task is made, or it clashes with one whose rule is the same
    disableRules = true ∨ ∀ m id, parsePostableRule parseTest ruleStr = .ok m →
      lastInsertId = some id → (m.rule .copy).taskError = none →
        (s.manager.tasks (prepareTaskName (toString id))).isSome ∧
          s.manager.rules (ruleIdFromTaskName (prepareTaskName (toString id))) =
            some ⟨(m.rule .copy).running, noAlerts⟩
  | .edit ruleStr id written =>
    -- nothing is written, or there is no row or the same one
    ∀ m, parsePostableRule parseTest ruleStr = .ok m → Go.atoi id ≠ 0 → written = true →
      ∀ row, s.stored (Go.atoi id) = some row → storedRow ruleStr = row
  | .patch ruleStr ruleId read _ =>
    -- the patch is not accepted, or the old task is made again
    ∀ id p r y, Go.parseInt ruleId = some id → read = true → s.stored id = some r →
      ruleStr = some p → Accepted parseTest p r y →
        let task := s.manager.tasks (prepareTaskName ruleId)
        rolledBackTask noAlerts r (r.touched p y.withTask) y task = task ∧
          (s.manager.rules (ruleIdFromTaskName (prepareTaskName ruleId)) = task ∨
            task = none ∧ y.disabled = true)
  | .delete id _ =>
    -- there is no task to delete
    disableRules = true ∨ ∀ n, Go.parseInt id = some n →
      s.manager.tasks (prepareTaskName (toString n)) = none

variable {noAlerts disableRules parseTest s} {s' : ManagerState F A} {err : CallError}

omit [Neg F] in
theorem ManagerState.with_manager_eq_iff {mgr : Manager (EvaluatedRule F A)} :
    ({ s with manager := mgr } : ManagerState F A) = s ↔ mgr = s.manager := by
  cases s
  simp

theorem ManagerState.with_stored_eq_iff {stored : Int → Option (PostableRule F)} :
    ({ s with stored := stored } : ManagerState F A) = s ↔ stored = s.stored := by
  cases s
  simp

theorem ManagerState.updateRow_eq_self_iff {id : Int} {row : PostableRule F} :
    s.updateRow id row = s.stored ↔ ∀ r, s.stored id = some r → row = r := by
  rw [ManagerState.updateRow, Function.update_eq_self_iff]
  cases s.stored id with
  | none => simp
  | some r => simp

theorem ManagerState.resolved_held (m : Memory F) : ManagerState.resolved m s.held = s.manager := by
  obtain ⟨stored, ⟨tasks, rules⟩⟩ := s
  simp only [resolved, held, Manager.map, Option.map_map, Manager.mk.injEq]
  constructor
  · funext k
    exact Option.map_id'
  · funext k
    exact Option.map_id'

theorem ManagerState.resolved_set (m : Memory F) (n : String) (t r : Option (HeldRule F A)) :
    ManagerState.resolved m (s.held.set n t r) =
      s.manager.set n (t.map (HeldRule.resolve m)) (r.map (HeldRule.resolve m)) := by
  rw [ManagerState.resolved, Manager.map_set]
  exact congrArg (fun mgr : Manager (EvaluatedRule F A) => mgr.set n _ _) (s.resolved_held m)

/-- `addTask` in `CreateRule`, where the task can be made. -/
theorem ManagerState.addTask_held (n : String) (r : HeldRule F A) :
    (s.manager.tasks n = none ∧ s.held.addTask n (.ok r) = (s.held.set n (some r) (some r), .ok ())) ∨
      ((s.manager.tasks n).isSome ∧ ∃ err, s.held.addTask n (.ok r) =
        (s.held.set n (s.held.tasks n) (some r), .error err)) := by
  cases hold : s.manager.tasks n with
  | none =>
    have habsent : s.held.tasks n = none := by simp [ManagerState.held, Manager.map, hold]
    exact .inl ⟨rfl, Manager.addTask_absent habsent r⟩
  | some old =>
    have hpresent : (s.held.tasks n).isSome := by simp [ManagerState.held, Manager.map, hold]
    refine .inr ⟨rfl, .error "a rule with the same name already exists", ?_⟩
    rw [Manager.addTask_present hpresent]
    simp only [Manager.set, Function.update_eq_self]

theorem createRule_unchanged_iff {ruleStr : Option (RulePatch F)} {lastInsertId : Option Int}
    {committed : Bool}
    (h : s.createRule noAlerts disableRules parseTest ruleStr lastInsertId committed = (s', .error err)) :
    s' = s ↔ (Call.create ruleStr lastInsertId committed).Undone noAlerts disableRules parseTest s := by
  rw [ManagerState.createRule] at h
  cases hparse : parsePostableRule parseTest ruleStr with
  | error err =>
    simp only [hparse, Prod.mk.injEq] at h
    refine iff_of_true h.1.symm (.inr fun m id hm => ?_)
    rw [hparse] at hm
    cases hm
  | ok m =>
    cases lastInsertId with
    | none =>
      simp only [hparse, Prod.mk.injEq] at h
      refine iff_of_true h.1.symm (.inr fun m id _ hid => ?_)
      cases hid
    | some id =>
      cases hoption : disableRules with
      | true =>
        simp only [hparse, hoption, if_true] at h
        split at h
        · cases h
        · exact iff_of_true (Prod.mk.inj h).1.symm (.inl rfl)
      | false =>
        simp only [hparse, hoption, Bool.false_eq_true, if_false] at h
        cases htask : (m.rule .copy).taskError with
        | some err' =>
          -- nothing is added
          have hsame : s' = s := by
            simp only [prepareHeldRule_error noAlerts htask] at h
            cases err' with
            | error message =>
              simp only [Manager.addTask, s.resolved_held, Prod.mk.injEq] at h
              exact h.1.symm
            | panic =>
              simp only [Manager.addTask, s.resolved_held, Prod.mk.injEq] at h
              exact h.1.symm
          refine iff_of_true hsame (.inr fun m' id' hm' hid' htask' => ?_)
          obtain rfl := Except.ok.inj (hparse.symm.trans hm')
          rw [htask] at htask'
          cases htask'
        | none =>
          simp only [prepareHeldRule_ok noAlerts htask] at h
          rcases s.addTask_held (prepareTaskName (toString id))
            (.made (m.task .copy) noAlerts) with ⟨hnone, hadd⟩ | ⟨hsome, err', hadd⟩
          · -- the task is added, and the commit fails
            simp only [hadd, s.resolved_set] at h
            split at h
            · cases h
            · obtain rfl := (Prod.mk.inj h).1
              rw [ManagerState.with_manager_eq_iff, Manager.set_eq_self_iff, hnone]
              refine iff_of_false (fun hsame => by cases hsame.1) ?_
              rintro (hoption' | hundone)
              · cases hoption'
              · have hsome := (hundone m id hparse rfl htask).1
                rw [hnone] at hsome
                cases hsome
          · -- the rule is replaced, and the task is not
            simp only [hadd, s.resolved_set] at h
            obtain rfl := (Prod.mk.inj h).1
            have htasks : (s.held.tasks (prepareTaskName (toString id))).map
                (HeldRule.resolve (m.constructed .copy)) =
                  s.manager.tasks (prepareTaskName (toString id)) :=
              congrFun (congrArg Manager.tasks (s.resolved_held (m.constructed .copy))) _
            rw [ManagerState.with_manager_eq_iff, Manager.set_eq_self_iff, htasks]
            simp only [Option.map_some, HeldRule.resolve, Memory.running_constructed]
            constructor
            · rintro ⟨-, hrule⟩
              refine .inr fun m' id' hm' hid' _ => ?_
              obtain rfl := Except.ok.inj (hparse.symm.trans hm')
              obtain rfl := Option.some.inj hid'
              exact ⟨hsome, hrule.symm⟩
            · rintro (hoption' | hundone)
              · cases hoption'
              · exact ⟨trivial, (hundone m id hparse rfl htask).2.symm⟩

theorem editRule_unchanged_iff {ruleStr : Option (RulePatch F)} {id : String} {written : Bool}
    (h : s.editRule noAlerts disableRules parseTest ruleStr id written = (s', .error err)) :
    s' = s ↔ (Call.edit ruleStr id written).Undone noAlerts disableRules parseTest s := by
  rw [ManagerState.editRule] at h
  cases hparse : parsePostableRule parseTest ruleStr with
  | error err =>
    simp only [hparse, Prod.mk.injEq] at h
    refine iff_of_true h.1.symm fun m hm => ?_
    rw [hparse] at hm
    cases hm
  | ok m =>
    simp only [hparse] at h
    by_cases hid : Go.atoi id = 0
    · rw [if_pos hid] at h
      exact iff_of_true (Prod.mk.inj h).1.symm fun _ _ hne => absurd hid hne
    rw [if_neg hid] at h
    cases written with
    | false =>
      simp only [Bool.false_eq_true, if_false, Prod.mk.injEq] at h
      refine iff_of_true h.1.symm fun _ _ _ hwritten => ?_
      cases hwritten
    | true =>
      simp only [if_true] at h
      cases hoption : disableRules with
      | true =>
        simp only [hoption, if_true] at h
        cases h
      | false =>
        simp only [hoption, Bool.false_eq_true, if_false] at h
        have hsame : s' = { s with stored := s.updateRow (Go.atoi id) (storedRow ruleStr) } := by
          cases hdisabled : (m.rule .copy).disabled with
          | true =>
            simp only [syncTask_disabled noAlerts _ _ hdisabled] at h
            cases h
          | false =>
            cases htask : (m.rule .copy).taskError with
            | none =>
              simp only [syncTask_enabled noAlerts _ _ hdisabled htask] at h
              cases h
            | some err' =>
              obtain ⟨err', hsync⟩ := syncTask_failed noAlerts s.held
                (prepareTaskName (toString (Go.atoi id))) hdisabled htask
              simp only [hsync, s.resolved_held] at h
              exact (Prod.mk.inj h).1.symm
        rw [hsame, s.with_stored_eq_iff, ManagerState.updateRow_eq_self_iff]
        constructor
        · exact fun hrow _ _ _ _ => hrow
        · exact fun hundone => hundone m hparse hid rfl

theorem deleteRule_unchanged_iff {id : String} {written : Bool}
    (h : s.deleteRule disableRules id written = (s', .error err)) :
    s' = s ↔ (Call.delete id written).Undone noAlerts disableRules parseTest s := by
  rw [ManagerState.deleteRule] at h
  cases hid : Go.parseInt id with
  | none =>
    simp only [hid, Prod.mk.injEq] at h
    refine iff_of_true h.1.symm (.inr fun n hn => ?_)
    rw [hid] at hn
    cases hn
  | some n =>
    simp only [hid] at h
    cases written with
    | true => cases h
    | false =>
      simp only [Bool.false_eq_true, if_false, Prod.mk.injEq] at h
      obtain rfl := h.1
      rw [ManagerState.with_manager_eq_iff]
      cases hoption : disableRules with
      | true => exact iff_of_true rfl (.inl rfl)
      | false =>
        simp only [Bool.false_eq_true, if_false, Manager.deleteTask_eq, Manager.set_eq_self_iff]
        constructor
        · rintro ⟨hnone, -⟩
          refine .inr fun n' hn' => ?_
          obtain rfl := Option.some.inj (hid.symm.trans hn')
          exact hnone.symm
        · rintro (hoption' | hundone)
          · cases hoption'
          · rw [hundone n hid]
            exact ⟨rfl, rfl⟩

section Patch

variable {p : RulePatch F} {r y : PostableRule F} {m : Memory F} {n : String}

/-- The patched rule runs as before, whatever the second sync does to the memory. -/
theorem running_prepared {m : Memory F} {err : TaskError}
    (hbase : baseRuleError (m.ruleCondition.get .copy) = none)
    (herr : (m.rule .original).taskError = some err) {t : Task} (ht : t.ruleCondition = .copy) :
    (prepareTaskFunc m .original).1.running t = m.running t := by
  obtain ⟨m', hm', hmemory⟩ := prepareTaskFunc_error herr
  rw [hm']
  rcases hmemory with rfl | rfl
  · rfl
  · cases hpointers : m.ruleCondition with
    | shared c =>
      -- the condition of the stored rule is that of the patched one, which has a task
      have horiginal : baseRuleError (m.ruleCondition.get .original) = none := by
        rw [hpointers] at hbase ⊢
        exact hbase
      have hsame := prepareTaskFunc_fst_of_error herr horiginal
      rw [hm', hpointers] at hsame
      exact congrArg (fun m : Memory F => m.running t) hsame
    | apart original copy =>
      rw [Memory.running, Memory.running, ht, hpointers]
      rfl

/-- The memory after a sync that succeeds. -/
def Memory.synced (m : Memory F) (v : Var) : Memory F :=
  if (m.rule v).disabled then m else m.constructed v

theorem Memory.rule_synced (m : Memory F) (v : Var) : (m.synced v).rule v = (m.rule v).withTask := by
  rw [synced, PostableRule.withTask]
  split
  · rfl
  · exact m.rule_constructed v

theorem Memory.Keeps.synced (h : m.Keeps r p) : (m.synced .copy).Keeps r p := by
  rw [Memory.synced, Memory.constructed]
  split
  · exact h
  · split
    · exact { h with ruleCondition := h.ruleCondition.modify _ }
    · exact h

theorem Memory.running_synced (m : Memory F) (v : Var) (h : (m.rule v).disabled = false) :
    (m.synced v).running (m.task v) = (m.rule v).running := by
  rw [synced, h]
  exact m.running_constructed v

/-- The resolved task of a sync. -/
theorem syncedTask_resolve (task : Option (HeldRule F A)) (m m' : Memory F) (v : Var) :
    (syncedTask noAlerts task m v).map (HeldRule.resolve m') =
      if (m.rule v).disabled then none
      else some (EvaluatedRule.replacing noAlerts (task.map (HeldRule.resolve m'))
        (m'.running (m.task v))) := by
  rw [syncedTask]
  split
  · rfl
  · exact congrArg some (resolve_copied noAlerts m' task (m.task v))

/-- The task and its rule are as before, where the rule is that of the task unless there was no task. -/
theorem rolled_back_iff {O : Type} {task task' rule rule' : Option O} {disabled : Prop}
    (hstays : disabled ∧ task = none ∧ task' = none → rule' = rule)
    (hreplaced : ¬ (disabled ∧ task = none ∧ task' = none) → rule' = task') :
    task' = task ∧ rule' = rule ↔ task' = task ∧ (rule = task ∨ task = none ∧ disabled) := by
  refine and_congr_right fun htask => ?_
  by_cases hnone : disabled ∧ task = none ∧ task' = none
  · exact iff_of_true (hstays hnone) (.inr ⟨hnone.2.1, hnone.1⟩)
  · rw [hreplaced hnone, htask]
    refine ⟨fun hrule => .inl hrule.symm, ?_⟩
    rintro (hrule | ⟨htask', hdisabled⟩)
    · exact hrule.symm
    · exact absurd ⟨hdisabled, htask', htask.trans htask'⟩ hnone

theorem ManagerState.tasks_held_resolve (s : ManagerState F A) (m : Memory F) (n : String) :
    (s.held.tasks n).map (HeldRule.resolve m) = s.manager.tasks n :=
  congrFun (congrArg Manager.tasks (s.resolved_held m)) n

theorem ManagerState.rules_held_resolve (s : ManagerState F A) (m : Memory F) (id : String) :
    (s.held.rules id).map (HeldRule.resolve m) = s.manager.rules id :=
  congrFun (congrArg Manager.rules (s.resolved_held m)) id

/-- The task of the patched rule in a memory in which it runs as before. -/
theorem syncedTask_patched {m' : Memory F}
    (hrunning : (m.rule .copy).disabled = false →
      m'.running (m.task .copy) = (m.rule .copy).running) :
    (syncedTask noAlerts (s.held.tasks n) m .copy).map (HeldRule.resolve m') =
      patchedTask noAlerts (m.rule .copy) (s.manager.tasks n) := by
  rw [syncedTask_resolve, s.tasks_held_resolve, patchedTask]
  cases hdisabled : (m.rule .copy).disabled with
  | true => rfl
  | false => rw [hrunning hdisabled]

/-- The second sync, after the first one has succeeded. -/
theorem second_sync (s : ManagerState F A) (n : String) (hkeeps : m.Keeps r p)
    (haccepted : (m.rule .copy).disabled = false → (m.rule .copy).taskError = none)
    (first : Option (HeldRule F A)) (hfirst : first = syncedTask noAlerts (s.held.tasks n) m .copy) :
    ∃ m' second res,
      (s.held.set n first (syncedRule (s.held.tasks n) first
          (s.held.rules (ruleIdFromTaskName n)))).syncRuleStateWithTask noAlerts (m.synced .copy) n
          .original =
        (m', s.held.set n second (if first.isNone ∧ (s.held.tasks n).isNone ∧ second.isNone then
          s.held.rules (ruleIdFromTaskName n) else second), res) ∧
      second.map (HeldRule.resolve m') =
        rolledBackTask noAlerts r (r.touched p (m.rule .copy).withTask) (m.rule .copy)
          (s.manager.tasks n) := by
  have horiginal : (m.synced .copy).rule .original = r.touched p (m.rule .copy).withTask := by
    rw [← m.rule_synced .copy]
    exact hkeeps.synced.rule_original
  have hdisabled : ((m.synced .copy).rule .original).disabled = r.disabled := by
    rw [horiginal]
    rfl
  by_cases hok : ((m.synced .copy).rule .original).disabled = false →
      ((m.synced .copy).rule .original).taskError = none
  · -- the task of the stored rule is made again
    refine ⟨(m.synced .copy).synced .original,
      syncedTask noAlerts first (m.synced .copy) .original, .ok (), ?_, ?_⟩
    · rw [syncTask_ok noAlerts _ n hok]
      simp only [Manager.tasks_set, Manager.rules_set, Manager.set_set, syncedRule_syncedRule]
      rfl
    · rw [syncedTask_resolve, hdisabled, rolledBackTask]
      cases hstored : r.disabled with
      | true => rfl
      | false =>
        have htask := hok (hdisabled.trans hstored)
        have hrunning := (m.synced .copy).running_synced .original (hdisabled.trans hstored)
        rw [horiginal] at htask hrunning
        simp only [Bool.false_eq_true, if_false, htask, Option.isNone_none, if_true, hrunning]
        refine congrArg some (replacing_congr noAlerts _ ?_)
        rw [hfirst, syncedTask_resolve, s.tasks_held_resolve, patchedTask]
        cases (m.rule .copy).disabled with
        | true => rfl
        | false => rfl
  · -- it cannot be made, and the task of the patched rule stays
    rw [Classical.not_imp] at hok
    obtain ⟨henabled, herr⟩ := hok
    obtain ⟨err, herr⟩ := Option.ne_none_iff_exists'.mp herr
    obtain ⟨err', hsync⟩ := syncTask_failed noAlerts
      (s.held.set n first (syncedRule (s.held.tasks n) first
        (s.held.rules (ruleIdFromTaskName n)))) n henabled herr
    refine ⟨(prepareTaskFunc (m.synced .copy) .original).1, first, .error err', ?_, ?_⟩
    · rw [hsync, syncedRule_eq]
    · have hstored : r.disabled = false := hdisabled.symm.trans henabled
      have hleft : (r.touched p (m.rule .copy).withTask).taskError = some err := horiginal ▸ herr
      rw [hfirst, rolledBackTask, hstored, hleft]
      refine syncedTask_patched fun hcopy => ?_
      have hcondition : (m.synced .copy).ruleCondition.get .copy = (m.rule .copy).withTask.ruleCondition :=
        congrArg PostableRule.ruleCondition (m.rule_synced .copy)
      have hbase : baseRuleError ((m.synced .copy).ruleCondition.get .copy) = none := by
        rw [hcondition]
        refine baseRuleError_of_constructorError
          (?_ : constructorError (m.rule .copy).ruleType _ = none)
        rw [PostableRule.taskError_withTask]
        exact haccepted hcopy
      calc (prepareTaskFunc (m.synced .copy) .original).1.running (m.task .copy)
          = (m.synced .copy).running (m.task .copy) := running_prepared hbase herr rfl
        _ = (m.rule .copy).running := m.running_synced .copy hcopy

/-- `PatchRule` for a rule that is stored, whose patch is accepted, when the write fails. -/
theorem rollback_unchanged_iff {m' : Memory F} {mgr : Manager (HeldRule F A)}
    {res : Except TaskError Unit} (hkeeps : m.Keeps r p)
    (haccepted : (m.rule .copy).disabled = false → (m.rule .copy).taskError = none)
    (h : (s.held.set n (syncedTask noAlerts (s.held.tasks n) m .copy)
        (syncedRule (s.held.tasks n) (syncedTask noAlerts (s.held.tasks n) m .copy)
          (s.held.rules (ruleIdFromTaskName n)))).syncRuleStateWithTask noAlerts (m.synced .copy) n
            .original = (m', mgr, res)) :
    ManagerState.resolved m' mgr = s.manager ↔
      rolledBackTask noAlerts r (r.touched p (m.rule .copy).withTask) (m.rule .copy)
          (s.manager.tasks n) = s.manager.tasks n ∧
        (s.manager.rules (ruleIdFromTaskName n) = s.manager.tasks n ∨
          s.manager.tasks n = none ∧ (m.rule .copy).disabled = true) := by
  obtain ⟨m'', second, res', hsync, hsecond⟩ := second_sync s n hkeeps haccepted _ rfl
  obtain ⟨rfl, hmgr⟩ := Prod.mk.inj (hsync.symm.trans h)
  obtain ⟨rfl, -⟩ := Prod.mk.inj hmgr
  have hfirst : (syncedTask noAlerts (s.held.tasks n) m .copy).isNone ↔
      (m.rule .copy).disabled = true := by
    rw [syncedTask]
    split <;> simp_all
  have htask : (s.held.tasks n).isNone ↔ s.manager.tasks n = none := by
    simp [ManagerState.held, Manager.map]
  have hnone : second.isNone ↔ rolledBackTask noAlerts r (r.touched p (m.rule .copy).withTask)
      (m.rule .copy) (s.manager.tasks n) = none := by
    rw [← hsecond, Option.isNone_iff_eq_none, Option.map_eq_none_iff]
  rw [s.resolved_set, Manager.set_eq_self_iff, hsecond]
  refine rolled_back_iff (fun hstays => ?_) fun hreplaced => ?_
  · rw [if_pos ⟨hfirst.mpr hstays.1, htask.mpr hstays.2.1, hnone.mpr hstays.2.2⟩,
      s.rules_held_resolve]
  · rw [if_neg fun hstays =>
      hreplaced ⟨hfirst.mp hstays.1, htask.mp hstays.2.1, hnone.mp hstays.2.2⟩, hsecond]

theorem patchRule_unchanged_iff {ruleStr : Option (RulePatch F)} {ruleId : String}
    {read written : Bool}
    (h : s.patchRule noAlerts parseTest ruleStr ruleId read written = (s', .error err)) :
    s' = s ↔
      (Call.patch ruleStr ruleId read written).Undone noAlerts disableRules parseTest s := by
  rw [ManagerState.patchRule] at h
  by_cases hempty : ruleId = ""
  · rw [if_pos hempty] at h
    refine iff_of_true (Prod.mk.inj h).1.symm fun id _ _ _ hid => ?_
    rw [hempty] at hid
    cases hid
  rw [if_neg hempty] at h
  cases hid : Go.parseInt ruleId with
  | none =>
    simp only [hid] at h
    refine iff_of_true (Prod.mk.inj h).1.symm fun id _ _ _ hid' => ?_
    rw [hid] at hid'
    cases hid'
  | some id =>
    simp only [hid] at h
    cases hread : (if read then s.stored id else none) with
    | none =>
      simp only [hread] at h
      refine iff_of_true (Prod.mk.inj h).1.symm fun id' _ r _ hid' hread' hstored => ?_
      obtain rfl := Option.some.inj (hid.symm.trans hid')
      rw [if_pos hread', hstored] at hread
      cases hread
    | some r =>
      simp only [hread] at h
      obtain ⟨hread', hstored⟩ : read = true ∧ s.stored id = some r := by
        split at hread
        · exact ⟨‹_›, hread⟩
        · cases hread
      cases ruleStr with
      | none =>
        refine iff_of_true (Prod.mk.inj h).1.symm fun _ _ _ _ _ _ _ hdocument => ?_
        cases hdocument
      | some p =>
        cases hparsed : parsedRule parseTest p r with
        | error err =>
          simp only [parseIntoRule_error hparsed] at h
          refine iff_of_true (Prod.mk.inj h).1.symm fun id' p' r' y hid' _ hstored' hp haccepted => ?_
          obtain rfl := Option.some.inj (hid.symm.trans hid')
          obtain rfl := Option.some.inj (hstored.symm.trans hstored')
          obtain rfl := Option.some.inj hp
          have hcontra := hparsed.symm.trans haccepted.1
          cases hcontra
        | ok y =>
          obtain ⟨m, hm, rfl, hkeeps⟩ := parseIntoRule_ok hparsed
          simp only [hm] at h
          have hundone : (Call.patch (some p) ruleId read written).Undone noAlerts disableRules
              parseTest s ↔ (Accepted parseTest p r (m.rule .copy) →
                rolledBackTask noAlerts r (r.touched p (m.rule .copy).withTask) (m.rule .copy)
                    (s.manager.tasks (prepareTaskName ruleId)) =
                      s.manager.tasks (prepareTaskName ruleId) ∧
                  (s.manager.rules (ruleIdFromTaskName (prepareTaskName ruleId)) =
                      s.manager.tasks (prepareTaskName ruleId) ∨
                    s.manager.tasks (prepareTaskName ruleId) = none ∧
                      (m.rule .copy).disabled = true)) := by
            refine ⟨fun hall haccepted => hall id p r _ hid hread' hstored rfl haccepted,
              fun hone id' p' r' y hid' _ hstored' hp haccepted => ?_⟩
            obtain rfl := Option.some.inj (hid.symm.trans hid')
            obtain rfl := Option.some.inj (hstored.symm.trans hstored')
            obtain rfl := Option.some.inj hp
            obtain rfl := Except.ok.inj (hparsed.symm.trans haccepted.1)
            exact hone haccepted
          rw [hundone]
          by_cases haccepted : (m.rule .copy).disabled = false → (m.rule .copy).taskError = none
          · rw [syncTask_ok noAlerts _ _ haccepted] at h
            simp only at h
            cases written with
            | true => cases h
            | false =>
              simp only [Bool.false_eq_true, if_false] at h
              have hmemory : (if (m.rule .copy).disabled = true then m else m.constructed .copy) =
                  m.synced .copy := rfl
              rw [hmemory] at h
              cases hsync : (s.held.set (prepareTaskName ruleId)
                  (syncedTask noAlerts (s.held.tasks (prepareTaskName ruleId)) m .copy)
                  (syncedRule (s.held.tasks (prepareTaskName ruleId))
                    (syncedTask noAlerts (s.held.tasks (prepareTaskName ruleId)) m .copy)
                    (s.held.rules (ruleIdFromTaskName (prepareTaskName
                      ruleId))))).syncRuleStateWithTask noAlerts (m.synced .copy)
                  (prepareTaskName ruleId) .original with
              | mk m' out =>
                obtain ⟨mgr, res⟩ := out
                have hs' : s' = { s with manager := ManagerState.resolved m' mgr } := by
                  cases res with
                  | ok done =>
                    simp only [hsync] at h
                    exact (Prod.mk.inj h).1.symm
                  | error err' =>
                    cases err' with
                    | error message =>
                      simp only [hsync] at h
                      exact (Prod.mk.inj h).1.symm
                    | panic =>
                      simp only [hsync] at h
                      exact (Prod.mk.inj h).1.symm
                rw [hs', ManagerState.with_manager_eq_iff,
                  rollback_unchanged_iff hkeeps haccepted hsync]
                exact ⟨fun hcondition _ => hcondition, fun hcondition => hcondition ⟨hparsed, haccepted⟩⟩
          · refine iff_of_true ?_ fun hno => absurd hno.2 haccepted
            rw [Classical.not_imp] at haccepted
            obtain ⟨henabled, herr⟩ := haccepted
            obtain ⟨err', herr⟩ := Option.ne_none_iff_exists'.mp herr
            obtain ⟨err'', hsync⟩ :=
              syncTask_failed noAlerts s.held (prepareTaskName ruleId) henabled herr
            simp only [hsync, s.resolved_held] at h
            exact (Prod.mk.inj h).1.symm

end Patch

/-- Each stored rule that is enabled has its task. -/
def ManagerState.Corresponds (parseTest : String → String → Option String) (s : ManagerState F A) :
    Prop :=
  ∀ id r, s.stored id = some r → r.disabled = false → ∃ y alerts, r.withDefaults = .ok y ∧
    y.validate parseTest = [] ∧
      s.manager.tasks (prepareTaskName (toString id)) = some ⟨y.running, alerts⟩

end Calls

/-! ### A rule that is deleted -/

/-- The manager with the rule that watches one query. -/
def watching : ManagerState Int Unit where
  stored id := if id = 1 then some (belowThree ruleTypeThreshold) else none
  manager := (Manager.new.addTask (prepareTaskName "1")
    (.ok ⟨(belowThree ruleTypeThreshold).running, ()⟩)).1

theorem watching_corresponds : watching.Corresponds fun _ _ => none := by
  intro id r hr _
  have hid : id = 1 := by
    by_contra hne
    change (if id = 1 then _ else _) = _ at hr
    rw [if_neg hne] at hr
    cases hr
  subst hid
  obtain rfl := Option.some.inj hr
  exact ⟨_, (), rfl, rfl, rfl⟩

/-- The state after the database fails. -/
def afterDelete : ManagerState Int Unit :=
  (watching.run () false (fun _ _ => none) (.delete "1" false)).1

end QueryService.Rules
