import BoringPanel.Lib.Runs
import BoringPanel.QueryService.Rules.Manager
import Mathlib

/-!
# Concurrent calls of the manager

`EditRule`, `PatchRule` and `DeleteRule` of any number of callers, one step at a time: `addTask`,
`editTask` and `deleteTask` are steps, and so is the look-up that chooses between them. What the calls
parse, and what the database answers, is left open.

The rules stay those of the tasks while no task is added under the name of another one
(`tasks_agree_of_run`). The look-up of another call may have come before that one was added.
-/

namespace QueryService.Rules

/-- What follows a sync: `EditRule` returns, and `PatchRule` writes to the database. -/
inductive AfterSync where
  | returns
  | writes

/-- Where a call is. -/
inductive Stage where
  | idle
  | editRule (id : String)
  | patchRule (ruleId : String)
  | deleteRule (id : String)
  /-- `syncRuleStateWithTask`, before the look-up. -/
  | sync (taskName : String) (disabled : Bool) (after : AfterSync)
  /-- `syncRuleStateWithTask`, after it. -/
  | act (taskName : String) (step : SyncStep) (after : AfterSync)
  | write (taskName : String)

def AfterSync.stage (taskName : String) : AfterSync → Stage
  | .returns => .idle
  | .writes => .write taskName

/-- What a call does next: `acts` has what `prepareTaskFunc` would return. -/
inductive Event (O : Type) where
  | starts
  | returns
  | syncs
  | looksUp
  | acts (newTask : Except TaskError O)
  | deletes
  | writeFails

/-- The initial tasks, those of the stored rules. -/
def Manager.initiate {O : Type} (storedRules : List (Int × Except TaskError O)) : Manager O :=
  storedRules.foldl (fun m rec => (m.addTask (prepareTaskName (toString rec.1)) rec.2).1) Manager.new

section Calls

variable {O ι : Type} (disableRules : Bool) (copyState : O → O → O)

/-- A step of one call. -/
inductive CallStep : Manager O → Stage → Event O → Manager O → Stage → Prop
  | editRule {m} (id) : CallStep m .idle .starts m (.editRule id)
  | patchRule {m} (ruleId) : CallStep m .idle .starts m (.patchRule ruleId)
  | deleteRule {m} (id) : CallStep m .idle .starts m (.deleteRule id)
  /-- The rule is not valid, the database fails, or there are no tasks. -/
  | editReturns {m id} : CallStep m (.editRule id) .returns m .idle
  | editSyncs {m id} (disabled) (hid : Go.atoi id ≠ 0) (hopts : disableRules = false) :
      CallStep m (.editRule id) .syncs m
        (.sync (prepareTaskName (toString (Go.atoi id))) disabled .returns)
  | patchReturns {m ruleId} : CallStep m (.patchRule ruleId) .returns m .idle
  | patchSyncs {m ruleId} (disabled) (hid : Go.parseInt ruleId ≠ none) :
      CallStep m (.patchRule ruleId) .syncs m (.sync (prepareTaskName ruleId) disabled .writes)
  | deleteReturns {m id} : CallStep m (.deleteRule id) .returns m .idle
  /-- The database follows, and leaves the tasks. -/
  | deletes {m id n} (hid : Go.parseInt id = some n) (hopts : disableRules = false) :
      CallStep m (.deleteRule id) .deletes (m.deleteTask (prepareTaskName (toString n))) .idle
  | looksUp {m taskName disabled after} :
      CallStep m (.sync taskName disabled after) .looksUp m
        (.act taskName (m.syncStep taskName disabled) after)
  | acts {m m' taskName step after newTask}
      (h : m.sync taskName copyState newTask step = (m', .ok ())) :
      CallStep m (.act taskName step after) (.acts newTask) m' (after.stage taskName)
  | actFails {m m' taskName step after newTask err}
      (h : m.sync taskName copyState newTask step = (m', .error err)) :
      CallStep m (.act taskName step after) (.acts newTask) m' .idle
  | writes {m taskName} : CallStep m (.write taskName) .returns m .idle
  /-- The task is restored from the stored rule. -/
  | writeFails {m taskName} (disabled) :
      CallStep m (.write taskName) .writeFails m (.sync taskName disabled .returns)

structure Concurrent (O ι : Type) where
  manager : Manager O
  stage : ι → Stage

/-- A step of the system is one of a caller. -/
def ConcurrentStep [DecidableEq ι] (s : Concurrent O ι) (a : ι × Event O) (s' : Concurrent O ι) :
    Prop :=
  ∃ stage, CallStep disableRules copyState s.manager (s.stage a.1) a.2 s'.manager stage ∧
    s'.stage = Function.update s.stage a.1 stage

/-- A task is added under a name that no task has. -/
def NoClash (s : Concurrent O ι) (a : ι × Event O) : Prop :=
  ∀ taskName after r, s.stage a.1 = .act taskName .add after → a.2 = .acts (.ok r) →
    s.manager.tasks taskName = none

end Calls

/-! ### The rules and the tasks -/

section Agreement

variable {O ι : Type} {disableRules : Bool} {copyState : O → O → O} {m m' : Manager O}
variable {stage stage' : Stage} {e : Event O}

/-- The name of the task that a call is about. -/
def Stage.Named : Stage → Prop
  | .sync taskName _ _ => TaskName taskName
  | .act taskName _ _ => TaskName taskName
  | .write taskName => TaskName taskName
  | _ => True

theorem AfterSync.named_stage {taskName : String} (h : TaskName taskName) (after : AfterSync) :
    (after.stage taskName).Named := by
  cases after with
  | returns => trivial
  | writes => exact h

theorem CallStep.named (h : CallStep disableRules copyState m stage e m' stage')
    (hnamed : stage.Named) : stage'.Named := by
  cases h with
  | editSyncs => exact taskName_toString _
  | patchSyncs _ hid => exact taskName_of_parseInt hid
  | looksUp => exact hnamed
  | acts => exact AfterSync.named_stage hnamed _
  | writeFails => exact hnamed
  | _ => trivial

/-- A step of `syncRuleStateWithTask` keeps the agreement, unless it adds a task under the name of
another one. -/
theorem Manager.Agrees.sync {taskName : String} (h : m.Agrees) (hn : TaskName taskName)
    (newTask : Except TaskError O) (step : SyncStep)
    (hclear : step = .add → ∀ r, newTask = .ok r → m.tasks taskName = none) :
    (m.sync taskName copyState newTask step).1.Agrees := by
  cases step with
  | delete => exact h.deleteTask hn
  | add =>
    cases newTask with
    | error err =>
      cases err with
      | error message => exact h
      | panic => exact h
    | ok r => exact (h.addTask_iff hn).mpr (.inl (hclear rfl r rfl))
  | edit => exact h.editTask hn copyState newTask
  | nothing => exact h

theorem CallStep.agrees (h : CallStep disableRules copyState m stage e m' stage')
    (hnamed : stage.Named) (hagrees : m.Agrees)
    (hclear : ∀ taskName after r, stage = .act taskName .add after → e = .acts (.ok r) →
      m.tasks taskName = none) : m'.Agrees := by
  cases h with
  | deletes => exact hagrees.deleteTask (taskName_toString _)
  | @acts _ taskName step after newTask hact =>
    have hm : (m.sync taskName copyState newTask step).1 = m' := congrArg Prod.fst hact
    rw [← hm]
    refine hagrees.sync hnamed newTask step ?_
    rintro rfl r rfl
    exact hclear taskName after r rfl rfl
  | @actFails _ taskName step after newTask err hact =>
    have hm : (m.sync taskName copyState newTask step).1 = m' := congrArg Prod.fst hact
    rw [← hm]
    refine hagrees.sync hnamed newTask step ?_
    rintro rfl r rfl
    exact hclear taskName after r rfl rfl
  | _ => exact hagrees

/-- What every step keeps: the agreement, and the names that the calls have. -/
structure Concurrent.Sound (s : Concurrent O ι) : Prop where
  agrees : s.manager.Agrees
  named : ∀ i, (s.stage i).Named

theorem Concurrent.Sound.step [DecidableEq ι] {s s' : Concurrent O ι} {a : ι × Event O} (hs : s.Sound)
    (h : Guarded (ConcurrentStep disableRules copyState) NoClash s a s') : s'.Sound := by
  obtain ⟨⟨stage, hcall, hstage⟩, hclear⟩ := h
  refine ⟨hcall.agrees (hs.named a.1) hs.agrees hclear, fun i => ?_⟩
  rw [hstage, Function.update_apply]
  split
  · exact hcall.named (hs.named a.1)
  · exact hs.named i

theorem prepareTaskName_toString_inj {n n' : Int}
    (h : prepareTaskName (toString n) = prepareTaskName (toString n')) : n = n' := by
  rw [prepareTaskName, prepareTaskName, String.append_left_inj] at h
  exact Int.repr_injective h

theorem Manager.tasks_addTask_of_ne {taskName n : String} (h : n ≠ taskName)
    {newTask : Except TaskError O} : (m.addTask taskName newTask).1.tasks n = m.tasks n := by
  cases newTask with
  | error err =>
    cases err with
    | error message => rfl
    | panic => rfl
  | ok r =>
    cases htask : m.tasks taskName with
    | none =>
      rw [addTask_absent htask]
      exact Function.update_of_ne h _ _
    | some old => rw [addTask_present (by rw [htask]; rfl)]

/-- The stored rules have ids of their own, so no task is added twice at first. -/
theorem Manager.agrees_initiate {storedRules : List (Int × Except TaskError O)}
    (hids : (storedRules.map Prod.fst).Nodup) : (Manager.initiate storedRules).Agrees := by
  have hfold : ∀ (l : List (Int × Except TaskError O)) (m : Manager O), m.Agrees →
      (l.map Prod.fst).Nodup → (∀ rec ∈ l, m.tasks (prepareTaskName (toString rec.1)) = none) →
      (l.foldl (fun m rec => (m.addTask (prepareTaskName (toString rec.1)) rec.2).1) m).Agrees := by
    intro l
    induction l with
    | nil => exact fun m hm _ _ => hm
    | cons rec l ih =>
      intro m hm hnd habsent
      rw [List.map_cons, List.nodup_cons] at hnd
      have hrec := habsent rec List.mem_cons_self
      refine ih _ ?_ hnd.2 fun rec' hrec' => ?_
      · refine @Manager.Agrees.sync _ (fun r _ => r) _ _ hm (taskName_toString _) rec.2 .add ?_
        exact fun _ _ _ => hrec
      · have hne : prepareTaskName (toString rec'.1) ≠ prepareTaskName (toString rec.1) := by
          intro heq
          refine hnd.1 (List.mem_map.mpr ⟨rec', hrec', ?_⟩)
          exact prepareTaskName_toString_inj heq
        rw [tasks_addTask_of_ne hne]
        exact habsent rec' (List.mem_cons_of_mem _ hrec')
  exact hfold storedRules Manager.new agrees_new hids fun _ _ => rfl

/-- **The rules are those of the tasks** in every state that the calls reach, if no task is added under
the name of another one. -/
theorem tasks_agree_of_run [DecidableEq ι] (disableRules : Bool) (copyState : O → O → O)
    {storedRules : List (Int × Except TaskError O)} (hids : (storedRules.map Prod.fst).Nodup)
    {events : List (ι × Event O)} {s : Concurrent O ι}
    (h : Run (Guarded (ConcurrentStep disableRules copyState) NoClash)
      ⟨Manager.initiate storedRules, fun _ => .idle⟩ events s) : s.manager.Agrees := by
  have hs : s.Sound :=
    h.invariant ⟨Manager.agrees_initiate hids, fun _ => trivial⟩ fun _ _ _ hs hstep => hs.step hstep
  exact hs.agrees

end Agreement

/-! ### Two calls that enable a rule -/

section Enabling

variable {O ι : Type} [DecidableEq ι] {disableRules : Bool} {copyState : O → O → O}

/-- The state after a step of one caller. -/
def Concurrent.after (s : Concurrent O ι) (i : ι) (m : Manager O) (stage : Stage) : Concurrent O ι :=
  ⟨m, Function.update s.stage i stage⟩

theorem guarded_of_step {s : Concurrent O ι} (i : ι) (e : Event O) (m : Manager O) (stage : Stage)
    (h : CallStep disableRules copyState s.manager (s.stage i) e m stage)
    (hclear : NoClash s (i, e)) :
    Guarded (ConcurrentStep disableRules copyState) NoClash s (i, e) (s.after i m stage) :=
  ⟨⟨stage, h, rfl⟩, hclear⟩

/-- `PatchRule` with a rule that is enabled, up to the look-up. -/
theorem run_lookUp {s s' : Concurrent O ι} {events : List (ι × Event O)} {i : ι} (ruleId : String)
    (h : Run (Guarded (ConcurrentStep disableRules copyState) NoClash) s events s')
    (hidle : s'.stage i = .idle) (hid : Go.parseInt ruleId ≠ none) :
    Run (Guarded (ConcurrentStep disableRules copyState) NoClash) s
      (events ++ [(i, .starts)] ++ [(i, .syncs)] ++ [(i, .looksUp)])
      (s'.after i s'.manager (.act (prepareTaskName ruleId)
        (s'.manager.syncStep (prepareTaskName ruleId) false) .writes)) := by
  have hstarts := h.snoc (guarded_of_step i .starts s'.manager (.patchRule ruleId)
    (by rw [hidle]; exact .patchRule ruleId) nofun)
  have hsyncs := hstarts.snoc (guarded_of_step i .syncs s'.manager
    (.sync (prepareTaskName ruleId) false .writes)
    (by simpa [Concurrent.after] using CallStep.patchSyncs false hid) nofun)
  have hlooksUp := hsyncs.snoc (guarded_of_step i .looksUp s'.manager
    (.act (prepareTaskName ruleId) (s'.manager.syncStep (prepareTaskName ruleId) false) .writes)
    (by simpa [Concurrent.after] using CallStep.looksUp) nofun)
  simpa [Concurrent.after] using hlooksUp

end Enabling

def start : Concurrent Nat Bool := ⟨Manager.initiate [], fun _ => .idle⟩

/-- A caller has looked the task of the rule 1 up. -/
def Concurrent.lookedUp (s : Concurrent Nat Bool) (i : Bool) : Concurrent Nat Bool :=
  s.after i s.manager (.act (prepareTaskName "1")
    (s.manager.syncStep (prepareTaskName "1") false) .writes)

/-- The first caller adds a task. -/
def Concurrent.added (s : Concurrent Nat Bool) : Concurrent Nat Bool :=
  s.after false (s.manager.addTask (prepareTaskName "1") (.ok 1)).1 (.write (prepareTaskName "1"))

/-- The second one fails to. -/
def Concurrent.clashed (s : Concurrent Nat Bool) : Concurrent Nat Bool :=
  s.after true (s.manager.addTask (prepareTaskName "1") (.ok 2)).1 .idle

theorem tasks_agree_of_run_added : (start.lookedUp false).added.manager.Agrees := by
  refine tasks_agree_of_run false (fun r _ => r) (show (([] : List (Int × Except TaskError Nat)).map Prod.fst).Nodup from List.nodup_nil)
    ((run_lookUp "1" .nil rfl (by decide)).snoc
      (guarded_of_step false (.acts (.ok 1)) _ _ (.acts rfl) ?_))
  rintro taskName after r - -
  rfl

/-- Both callers find no task. The second one fails, but its rule is the one that is reported. -/
theorem not_agrees_clashed : ¬ ∀ (events : List (Bool × Event Nat)) (s : Concurrent Nat Bool),
    Run (ConcurrentStep false fun r _ => r) start events s → s.manager.Agrees := by
  intro h
  have hlooked : Run (Guarded (ConcurrentStep false fun r _ => r) NoClash) start _
      ((start.lookedUp false).lookedUp true) :=
    run_lookUp "1" (run_lookUp "1" .nil rfl (by decide)) rfl (by decide)
  have hadded : Run (ConcurrentStep false fun r _ => r) start _
      ((start.lookedUp false).lookedUp true).added :=
    hlooked.of_guarded.snoc (a := (false, .acts (.ok 1))) ⟨_, .acts rfl, rfl⟩
  have hclashed : Run (ConcurrentStep false fun r _ => r) start _
      ((start.lookedUp false).lookedUp true).added.clashed :=
    hadded.snoc (a := (true, .acts (.ok 2))) ⟨_, .actFails rfl, rfl⟩
  have hrule := (h _ _ hclashed).rule_eq (taskName_toString 1)
  revert hrule
  decide

end QueryService.Rules
