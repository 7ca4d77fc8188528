import BoringPanel.QueryService.Rules.PatchRule

/-!
# The manager of the rules

`m.tasks` and `m.rules` of `rules/manager.go`, with `addTask`, `editTask` and `deleteTask`, which hold
the lock. A task has one rule, so it is identified with it; `O` is the type of the rules that run.
-/

namespace QueryService.Rules

/-! ### Names -/

def prepareTaskName (ruleId : String) : String := ruleId ++ "-groupname"

def ruleIdFromTaskName (n : String) : String :=
  String.ofList (Go.beforeFirst "-groupname".toList n.toList)

theorem ruleIdFromTaskName_prepareTaskName {ruleId : String} (h : 'g' ∉ ruleId.toList) :
    ruleIdFromTaskName (prepareTaskName ruleId) = ruleId := by
  have hbefore : Go.beforeFirst "-groupname".toList (ruleId.toList ++ "-groupname".toList) =
      ruleId.toList := Go.beforeFirst_append (by decide) h
  rw [ruleIdFromTaskName, prepareTaskName, String.toList_append, hbefore, String.ofList_toList]

/-- The name of the task of the rule that it says. -/
def TaskName (n : String) : Prop := prepareTaskName (ruleIdFromTaskName n) = n

theorem taskName_prepareTaskName {ruleId : String} (h : 'g' ∉ ruleId.toList) :
    TaskName (prepareTaskName ruleId) := by
  rw [TaskName, ruleIdFromTaskName_prepareTaskName h]

theorem TaskName.inj {n n' : String} (h : TaskName n) (h' : TaskName n')
    (heq : ruleIdFromTaskName n = ruleIdFromTaskName n') : n = n' :=
  calc n = prepareTaskName (ruleIdFromTaskName n) := h.symm
    _ = prepareTaskName (ruleIdFromTaskName n') := by rw [heq]
    _ = n' := h'

theorem not_mem_repr (n : Nat) : 'g' ∉ n.repr.toList := by
  intro h
  rw [Nat.toList_repr] at h
  have hdigit := Nat.isDigit_of_mem_toDigits (by decide) (by decide) h
  revert hdigit
  decide

/-- The name of the task of a stored rule. -/
theorem taskName_toString (n : Int) : TaskName (prepareTaskName (toString n)) := by
  refine taskName_prepareTaskName ?_
  rw [Int.toString_eq_repr, Int.repr_eq_if]
  split
  · exact not_mem_repr _
  · rw [String.toList_append, List.mem_append, not_or]
    exact ⟨by decide, not_mem_repr _⟩

theorem not_mem_of_parseDigits {s : List Char} {n : Nat} (h : Go.parseDigits s = some n) :
    'g' ∉ s := by
  intro hmem
  rw [Go.parseDigits] at h
  split at h
  · cases h
  · rename_i hdigits
    simp only [not_or, not_not, List.all_eq_true] at hdigits
    have hdigit := hdigits.2 'g' hmem
    revert hdigit
    decide

/-- The name of the task of an id that is a number. -/
theorem taskName_of_parseInt {ruleId : String} (h : Go.parseInt ruleId ≠ none) :
    TaskName (prepareTaskName ruleId) := by
  refine taskName_prepareTaskName fun hmem => h ?_
  have hnone : ∀ digits : List Char, 'g' ∈ digits → Go.parseDigits digits = none := by
    intro digits hdigits
    by_contra hsome
    obtain ⟨n, hn⟩ := Option.ne_none_iff_exists'.mp hsome
    exact not_mem_of_parseDigits hn hdigits
  rw [Go.parseInt]
  split
  · rename_i digits heq
    rw [heq] at hmem
    rw [hnone digits (by simpa using hmem)]
    rfl
  · rename_i digits heq
    rw [heq] at hmem
    rw [hnone digits (by simpa using hmem)]
    rfl
  · rw [hnone _ hmem]
    rfl

/-! ### Tasks and rules -/

structure Manager (O : Type) where
  tasks : String → Option O
  rules : String → Option O

/-- `NewManager`. -/
def Manager.new {O : Type} : Manager O := ⟨fun _ => none, fun _ => none⟩

namespace Manager

variable {O : Type} (m : Manager O) (taskName : String)

/-- `addTask`, with what `prepareTaskFunc` returns. -/
def addTask (newTask : Except TaskError O) : Manager O × Except TaskError Unit :=
  match newTask with
  | .error .panic => (m, .error .panic)
  | .error (.error _) => (m, .error (.error "error loading rules, previous rule set restored"))
  | .ok r =>
    let m := { m with rules := Function.update m.rules (ruleIdFromTaskName taskName) (some r) }
    if (m.tasks taskName).isSome then
      (m, .error (.error "a rule with the same name already exists"))
    else ({ m with tasks := Function.update m.tasks taskName (some r) }, .ok ())

/-- The new rule takes the state of the old one over, if there is one. -/
def copied (copyState : O → O → O) (old : Option O) (r : O) : O :=
  match old with
  | some oldTask => copyState r oldTask
  | none => r

/-- `editTask`, with what `prepareTaskFunc` returns, and `CopyState`. -/
def editTask (copyState : O → O → O) (newTask : Except TaskError O) :
    Manager O × Except TaskError Unit :=
  match newTask with
  | .error .panic => (m, .error .panic)
  | .error (.error _) => (m, .error
      (.error "error preparing rule with given parameters, previous rule set restored"))
  | .ok r =>
    let r := copied copyState (m.tasks taskName) r
    ({ rules := Function.update m.rules (ruleIdFromTaskName taskName) (some r)
       tasks := Function.update m.tasks taskName (some r) }, .ok ())

def deleteTask : Manager O :=
  if (m.tasks taskName).isSome then
    { rules := Function.update m.rules (ruleIdFromTaskName taskName) none
      tasks := Function.update m.tasks taskName none }
  else m

end Manager

/-- The step that `syncRuleStateWithTask` chooses when it looks the task up. -/
inductive SyncStep where
  | delete
  | add
  | edit
  | nothing
deriving DecidableEq

def Manager.syncStep {O : Type} (m : Manager O) (taskName : String) (disabled : Bool) : SyncStep :=
  if disabled then if (m.tasks taskName).isSome then .delete else .nothing
  else if (m.tasks taskName).isNone then .add
  else .edit

/-- The step, which may be made when others have been made since. -/
def Manager.sync {O : Type} (m : Manager O) (taskName : String) (copyState : O → O → O)
    (newTask : Except TaskError O) : SyncStep → Manager O × Except TaskError Unit
  | .delete => (m.deleteTask taskName, .ok ())
  | .add => m.addTask taskName newTask
  | .edit => m.editTask taskName copyState newTask
  | .nothing => (m, .ok ())

/-! ### Agreement -/

namespace Manager

variable {O : Type} {m : Manager O} {taskName : String} {r : O}

/-- **The rules are those of the tasks.** -/
structure Agrees (m : Manager O) : Prop where
  rules : ∀ id r, m.rules id = some r ↔ ∃ n, m.tasks n = some r ∧ ruleIdFromTaskName n = id
  names : ∀ n r, m.tasks n = some r → TaskName n

theorem agrees_new : (Manager.new : Manager O).Agrees where
  rules id r := by simp [Manager.new]
  names n r h := by cases h

/-- The rule of a name is that of its task. -/
theorem Agrees.rule_eq (h : m.Agrees) (hn : TaskName taskName) :
    m.rules (ruleIdFromTaskName taskName) = m.tasks taskName := by
  refine Option.ext fun r => ?_
  rw [h.rules]
  constructor
  · rintro ⟨n, htask, hid⟩
    rw [← (h.names n r htask).inj hn hid]
    exact htask
  · exact fun htask => ⟨taskName, htask, rfl⟩

/-- A task and its rule are replaced together. -/
theorem Agrees.update (h : m.Agrees) (hn : TaskName taskName) (r : Option O) :
    Agrees { rules := Function.update m.rules (ruleIdFromTaskName taskName) r
             tasks := Function.update m.tasks taskName r } where
  rules id r' := by
    simp only [Function.update_apply]
    by_cases hid : id = ruleIdFromTaskName taskName
    · rw [if_pos hid]
      constructor
      · exact fun hr => ⟨taskName, by rw [if_pos rfl, hr], hid.symm⟩
      · rintro ⟨n, htask, hid'⟩
        by_cases hname : n = taskName
        · rwa [if_pos hname] at htask
        · rw [if_neg hname] at htask
          exact absurd ((h.names n r' htask).inj hn (hid'.trans hid)) hname
    · rw [if_neg hid, h.rules]
      refine exists_congr fun n => and_congr_left fun hid' => ?_
      have hname : n ≠ taskName := by
        rintro rfl
        exact hid hid'.symm
      rw [if_neg hname]
  names n r' htask := by
    simp only [Function.update_apply] at htask
    by_cases hname : n = taskName
    · rw [hname]
      exact hn
    · rw [if_neg hname] at htask
      exact h.names n r' htask

theorem Agrees.deleteTask (h : m.Agrees) (hn : TaskName taskName) :
    (m.deleteTask taskName).Agrees := by
  rw [Manager.deleteTask]
  split
  · exact h.update hn none
  · exact h

theorem Agrees.editTask (h : m.Agrees) (hn : TaskName taskName) (copyState : O → O → O)
    (newTask : Except TaskError O) : (m.editTask taskName copyState newTask).1.Agrees := by
  cases newTask with
  | error err =>
    cases err with
    | error message => exact h
    | panic => exact h
  | ok r => exact h.update hn _

/-- No task has the name. -/
theorem addTask_absent (h : m.tasks taskName = none) (r : O) :
    m.addTask taskName (.ok r) = ({ rules := Function.update m.rules (ruleIdFromTaskName taskName) (some r)
                                    tasks := Function.update m.tasks taskName (some r) }, .ok ()) := by
  rw [addTask]
  simp only [h, Option.isSome_none, Bool.false_eq_true, if_false]

/-- A task has the name: the rule is replaced, and the task is not. -/
theorem addTask_present (h : (m.tasks taskName).isSome) (r : O) :
    m.addTask taskName (.ok r) =
      ({ m with rules := Function.update m.rules (ruleIdFromTaskName taskName) (some r) },
        .error (.error "a rule with the same name already exists")) := by
  rw [addTask]
  simp only [h, if_true]

/-- A task is added in agreement if there is none of its name, or the rule is that of the task. -/
theorem Agrees.addTask_iff (h : m.Agrees) (hn : TaskName taskName) :
    (m.addTask taskName (.ok r)).1.Agrees ↔ m.tasks taskName = none ∨ m.tasks taskName = some r := by
  cases htask : m.tasks taskName with
  | none =>
    rw [addTask_absent htask]
    exact iff_of_true (h.update hn (some r)) (.inl rfl)
  | some old =>
    rw [addTask_present (by rw [htask]; rfl)]
    constructor
    · intro hagrees
      have hrule : Function.update m.rules (ruleIdFromTaskName taskName) (some r)
          (ruleIdFromTaskName taskName) = m.tasks taskName := hagrees.rule_eq hn
      rw [Function.update_self, htask] at hrule
      exact .inr hrule.symm
    · rintro (hnone | hsame)
      · cases hnone
      · have hrules : Function.update m.rules (ruleIdFromTaskName taskName) (some r) = m.rules := by
          rw [← hsame, ← htask, ← h.rule_eq hn, Function.update_eq_self]
        rw [hrules]
        exact h

end Manager

end QueryService.Rules
