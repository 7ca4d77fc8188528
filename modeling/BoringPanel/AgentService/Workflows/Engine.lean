import BoringPanel.Lib.JsObject
import BoringPanel.Lib.Repeats
import Mathlib.Data.List.Forall2

/-!
# Workflows of the engine

What the compiler relies on of `@mastra/core`, which runs what it has built: a chain of calls (`Chain`),
each of which goes on from the output of the last one. Of a step and of a workflow it is known which
outputs it may complete with (`Runs`); one that suspends or fails has none.

`Mastra.documented` has the laws.
-/

namespace AgentService

variable {N : Type}

open JsValue (keyed)

/-- The outputs that something may complete with, for each input. -/
abbrev Runs (N : Type) := JsValue N → JsValue N → Prop

/-- What `createStep` and `commit` give. -/
structure MastraStep (N : Type) where
  id : JsText
  /-- The ids of what it is made of. -/
  inner : List JsText
  runs : Runs N

/-- The id of a step and those in it. -/
def MastraStep.allIds (step : MastraStep N) : List JsText := step.id :: step.inner

/-- One of the steps of a call, with its output under its id. -/
def outputOf (input : JsValue N) (step : MastraStep N) (output : JsText × JsValue N) : Prop :=
  output.1 = step.id ∧ step.runs input output.2

/-- The calls that add to a chain, and when what they give completes. -/
structure Mastra (N : Type) where
  /-- `then` -/
  andThen : Runs N → MastraStep N → Runs N
  branch : Runs N → List ((JsValue N → Option Bool) × MastraStep N) → Runs N
  parallel : Runs N → List (MastraStep N) → Runs N
  foreach : Runs N → MastraStep N → Nat → Runs N
  dowhile : Runs N → MastraStep N → (JsValue N → Nat → Option Bool) → Runs N
  dountil : Runs N → MastraStep N → (JsValue N → Nat → Option Bool) → Runs N
  /-- The `iterationCount` after a round. -/
  iterationCount : Nat → Nat
  andThen_iff : ∀ chain step x z, andThen chain step x z ↔ ∃ y, chain x y ∧ step.runs y z
  /-- The steps whose conditions are met, by their ids. -/
  branch_iff : ∀ chain cases x z, branch chain cases x z ↔ ∃ y outputs, chain x y ∧
    List.Forall₂ (outputOf y) ((cases.filter fun c => c.1 y = some true).map Prod.snd) outputs ∧
      z = .object (keyed outputs)
  /-- All steps, by their ids. -/
  parallel_iff : ∀ chain steps x z, parallel chain steps x z ↔ ∃ y outputs, chain x y ∧
    List.Forall₂ (outputOf y) steps outputs ∧ z = .object (keyed outputs)
  /-- The items one by one. -/
  foreach_iff : ∀ chain body concurrency x z, foreach chain body concurrency x z ↔ ∃ items outputs,
    chain x (.array items) ∧ List.Forall₂ body.runs items outputs ∧ z = .array outputs
  dowhile_iff : ∀ chain body condition x z, dowhile chain body condition x z ↔ ∃ y, chain x y ∧
    ∃ rounds, Repeats (fun a (_ : Unit) b => body.runs a b)
      (fun n value => condition value (iterationCount n)) 1 y rounds z
  dountil_iff : ∀ chain body condition x z, dountil chain body condition x z ↔ ∃ y, chain x y ∧
    ∃ rounds, Repeats (fun a (_ : Unit) b => body.runs a b)
      (fun n value => (condition value (iterationCount n)).map not) 1 y rounds z

/-- The laws can be met: an engine with nothing but the laws. -/
def Mastra.documented (N : Type) : Mastra N where
  andThen chain step x z := ∃ y, chain x y ∧ step.runs y z
  branch chain cases x z := ∃ y outputs, chain x y ∧
    List.Forall₂ (outputOf y) ((cases.filter fun c => c.1 y = some true).map Prod.snd) outputs ∧
      z = .object (keyed outputs)
  parallel chain steps x z := ∃ y outputs, chain x y ∧
    List.Forall₂ (outputOf y) steps outputs ∧ z = .object (keyed outputs)
  foreach chain body _ x z := ∃ items outputs,
    chain x (.array items) ∧ List.Forall₂ body.runs items outputs ∧ z = .array outputs
  dowhile chain body condition x z := ∃ y, chain x y ∧
    ∃ rounds, Repeats (fun a (_ : Unit) b => body.runs a b) (fun n value => condition value n) 1 y rounds z
  dountil chain body condition x z := ∃ y, chain x y ∧
    ∃ rounds, Repeats (fun a (_ : Unit) b => body.runs a b) (fun n value => (condition value n).map not) 1 y rounds z
  iterationCount n := n
  andThen_iff _ _ _ _ := Iff.rfl
  branch_iff _ _ _ _ := Iff.rfl
  parallel_iff _ _ _ _ := Iff.rfl
  foreach_iff _ _ _ _ _ := Iff.rfl
  dowhile_iff _ _ _ _ _ := Iff.rfl
  dountil_iff _ _ _ _ _ := Iff.rfl

/-- `createWorkflow(…)` and the calls on it so far. -/
structure Chain (N : Type) where
  id : JsText
  ids : List JsText
  runs : Runs N

def createWorkflow (id : JsText) : Chain N := ⟨id, [], fun x y => y = x⟩

namespace Chain

def commit (chain : Chain N) : MastraStep N := ⟨chain.id, chain.ids, chain.runs⟩

/-- A chain to which a call with these steps has been added. -/
def extend (chain : Chain N) (steps : List (MastraStep N)) (runs : Runs N) : Chain N where
  id := chain.id
  ids := chain.ids ++ steps.flatMap MastraStep.allIds
  runs := runs

variable (E : Mastra N) (chain : Chain N)

/-- `then` -/
def andThen (step : MastraStep N) : Chain N := chain.extend [step] (E.andThen chain.runs step)

def branch (cases : List ((JsValue N → Option Bool) × MastraStep N)) : Chain N :=
  chain.extend (cases.map Prod.snd) (E.branch chain.runs cases)

def parallel (steps : List (MastraStep N)) : Chain N := chain.extend steps (E.parallel chain.runs steps)

def foreach (body : MastraStep N) (concurrency : Nat) : Chain N :=
  chain.extend [body] (E.foreach chain.runs body concurrency)

def dowhile (body : MastraStep N) (condition : JsValue N → Nat → Option Bool) : Chain N :=
  chain.extend [body] (E.dowhile chain.runs body condition)

def dountil (body : MastraStep N) (condition : JsValue N → Nat → Option Bool) : Chain N :=
  chain.extend [body] (E.dountil chain.runs body condition)

theorem ids_andThen (step : MastraStep N) : (chain.andThen E step).ids = chain.ids ++ step.allIds :=
  congrArg (chain.ids ++ ·) (List.append_nil _)

theorem ids_branch (cases : List ((JsValue N → Option Bool) × MastraStep N)) :
    (chain.branch E cases).ids = chain.ids ++ (cases.map Prod.snd).flatMap MastraStep.allIds := rfl

theorem ids_parallel (steps : List (MastraStep N)) :
    (chain.parallel E steps).ids = chain.ids ++ steps.flatMap MastraStep.allIds := rfl

theorem ids_foreach (body : MastraStep N) (concurrency : Nat) :
    (chain.foreach E body concurrency).ids = chain.ids ++ body.allIds :=
  congrArg (chain.ids ++ ·) (List.append_nil _)

theorem ids_dowhile (body : MastraStep N) (condition : JsValue N → Nat → Option Bool) :
    (chain.dowhile E body condition).ids = chain.ids ++ body.allIds :=
  congrArg (chain.ids ++ ·) (List.append_nil _)

theorem ids_dountil (body : MastraStep N) (condition : JsValue N → Nat → Option Bool) :
    (chain.dountil E body condition).ids = chain.ids ++ body.allIds :=
  congrArg (chain.ids ++ ·) (List.append_nil _)

variable {E chain} {x z : JsValue N}

theorem runs_andThen (step : MastraStep N) :
    (chain.andThen E step).runs x z ↔ ∃ y, chain.runs x y ∧ step.runs y z := E.andThen_iff _ _ _ _

theorem runs_branch {cases : List ((JsValue N → Option Bool) × MastraStep N)} :
    (chain.branch E cases).runs x z ↔ ∃ y outputs, chain.runs x y ∧
      List.Forall₂ (outputOf y) ((cases.filter fun c => c.1 y = some true).map Prod.snd) outputs ∧
        z = .object (keyed outputs) := E.branch_iff _ _ _ _

theorem runs_parallel {steps : List (MastraStep N)} :
    (chain.parallel E steps).runs x z ↔ ∃ y outputs, chain.runs x y ∧
      List.Forall₂ (outputOf y) steps outputs ∧ z = .object (keyed outputs) := E.parallel_iff _ _ _ _

theorem runs_foreach {body : MastraStep N} {concurrency : Nat} :
    (chain.foreach E body concurrency).runs x z ↔ ∃ items outputs, chain.runs x (.array items) ∧
      List.Forall₂ body.runs items outputs ∧ z = .array outputs := E.foreach_iff _ _ _ _ _

theorem runs_dowhile {body : MastraStep N} {condition : JsValue N → Nat → Option Bool} :
    (chain.dowhile E body condition).runs x z ↔ ∃ y, chain.runs x y ∧ ∃ rounds,
      Repeats (fun a (_ : Unit) b => body.runs a b) (fun n value => condition value (E.iterationCount n)) 1 y
        rounds z := E.dowhile_iff _ _ _ _ _

theorem runs_dountil {body : MastraStep N} {condition : JsValue N → Nat → Option Bool} :
    (chain.dountil E body condition).runs x z ↔ ∃ y, chain.runs x y ∧ ∃ rounds,
      Repeats (fun a (_ : Unit) b => body.runs a b)
        (fun n value => (condition value (E.iterationCount n)).map not) 1 y rounds z :=
  E.dountil_iff _ _ _ _ _

end Chain

end AgentService
