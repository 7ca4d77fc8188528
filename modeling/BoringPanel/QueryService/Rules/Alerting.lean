import BoringPanel.Lib.GoClock
import BoringPanel.Lib.Table
import Mathlib.Data.List.Sort
import Mathlib.Data.String.Basic

/-!
# Alerts and their labels

The labels of `utils/labels/labels.go`, the alerts of `rules/alerting.go`, and the rows of the history
of a rule from `model/alerting.go`. The values are of type `F`. The hash function of the labels,
`xxhash.Sum64`, is a parameter.
-/

namespace QueryService.Rules

/-! ### Labels -/

structure Label where
  name : String
  value : String
deriving DecidableEq, Repr

abbrev Labels := List Label

def metricNameLabel : String := "__name__"
def temporalityLabel : String := "__temporality__"
def alertNameLabel : String := "alertname"
def alertRuleIdLabel : String := "ruleId"
def ruleSourceLabel : String := "ruleSource"

/-- The text that is hashed: each name and each value, with a byte after it that no text has. -/
def Labels.bytes (ls : Labels) : List UInt8 :=
  ls.flatMap fun l => l.name.toUTF8.data.toList ++ [0xff] ++ l.value.toUTF8.data.toList ++ [0xff]

def Labels.hash (xxhash : List UInt8 → UInt64) (ls : Labels) : UInt64 := xxhash ls.bytes

/-- `sort.Sort`, by the names. -/
def Labels.sort (ls : Labels) : Labels := ls.insertionSort fun l l' => l.name ≤ l'.name

/-- `Builder`, with the names that it deletes and the labels that it adds. -/
structure Builder where
  base : Labels
  del : List String
  add : List Label

namespace Builder

/-- `NewBuilder`. -/
def new (base : Labels) : Builder := ⟨base, [], []⟩

/-- `Del`. -/
def delete (b : Builder) (n : String) : Builder :=
  { b with add := b.add.filter fun a => a.name ≠ n, del := b.del ++ [n] }

def set (b : Builder) (n v : String) : Builder :=
  if b.add.any fun a => a.name = n then
    { b with add := b.add.map fun a => if a.name = n then { a with value := v } else a }
  else { b with add := b.add ++ [⟨n, v⟩] }

def labels (b : Builder) : Labels :=
  if b.del.isEmpty ∧ b.add.isEmpty then b.base
  else
    let kept := b.base.filter fun l => l.name ∉ b.del ∧ l.name ∉ b.add.map Label.name
    Labels.sort (kept ++ b.add)

end Builder

/-! ### Alerts -/

inductive AlertState where
  | inactive
  | pending
  | firing
  | noData
  | disabled
deriving DecidableEq, Repr

/-- The constants are the numbers from zero on. -/
def AlertState.toNat : AlertState → Nat
  | .inactive => 0
  | .pending => 1
  | .firing => 2
  | .noData => 3
  | .disabled => 4

/-- The state of a fingerprint that alerts. -/
def AlertState.alerting (s : AlertState) : Bool := s = .firing ∨ s = .noData

/-- Fifteen minutes. -/
def resolvedRetention : Int := 15 * 60 * 10 ^ 9

structure Alert (F : Type) where
  state : AlertState
  labels : Labels
  annotations : Labels
  queryResultLables : Labels
  generatorURL : String
  receivers : List String
  value : F
  activeAt : Go.Time
  firedAt : Go.Time
  resolvedAt : Go.Time
  lastSentAt : Go.Time
  validUntil : Go.Time
  missing : Bool
deriving DecidableEq, Repr

def Alert.needsSending {F : Type} (a : Alert F) (ts : Go.Time) (resendDelay : Go.Duration) : Bool :=
  if a.state = .pending then false
  -- resolved since the last send
  else if a.resolvedAt.after a.lastSentAt then true
  else (a.lastSentAt.add resendDelay).before ts

/-! ### The history of a rule -/

structure RuleStateHistory (F : Type) where
  ruleID : String
  ruleName : String
  overallState : AlertState
  overallStateChanged : Bool
  state : AlertState
  stateChanged : Bool
  unixMilli : Int
  labels : Labels
  fingerprint : UInt64
  value : F
deriving DecidableEq, Repr

end QueryService.Rules
